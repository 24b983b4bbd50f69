import InfinityLabs.Exercises.AtoiBase
import Mathlib.Data.List.Induction
import Mathlib.Data.Nat.Digits.Lemmas

/-!
# Decimal texts there and back

`Itoa10` and `Atoi10` of `c/ws9/ex.c`.  `Itoa10` writes the digits from the lowest on, then the
sign, and turns the text round; `Atoi10` reads it from the front.

`Itoa10` takes the opposite of a negative number, and the lowest `int` has none: there it has no
result.  Every other `int` comes back.
-/

namespace InfinityLabs
namespace Exercises
namespace DecimalRoundTrip

open Lib
open AtoiBase (minus plus readSign)

/-! ## The code -/

/-- The loop of `Reverse`. -/
def reverseLoop : Nat → List UInt8 → Nat → Nat → Except Trap (List UInt8)
  | 0, _, _, _ => .error .outOfFuel
  | fuel + 1, buf, i, j =>
      if i < j then do
        let tmp ← readAt buf i
        let buf ← writeAt buf i (← readAt buf j)
        let buf ← writeAt buf j tmp
        reverseLoop fuel buf (i + 1) (j - 1)
      else .ok buf

/-- `Reverse`; `len - 1` is unsigned. -/
def reverse (fuel : Nat) (buf : List UInt8) (len : Nat) : Except Trap (List UInt8) :=
  reverseLoop fuel buf 0 ((len + (2 ^ 64 - 1)) % 2 ^ 64)

/-- The loop of `Itoa10`: the buffer, and the place behind the digits. -/
def digitsLoop : Nat → Int → List UInt8 → Nat → Except Trap (List UInt8 × Nat)
  | 0, _, _, _ => .error .outOfFuel
  | fuel + 1, number, buf, i =>
      if number > 0 then do
        let digit ← modInt number 10
        let buf ← writeAt buf i (UInt8.ofInt (0x30 + digit))
        let number ← divInt number 10
        digitsLoop fuel number buf (i + 1)
      else .ok (buf, i)

/-- The digits of `Itoa10`, the lowest first. -/
def writeDigits (fuel : Nat) (number : Int) (buf : List UInt8) :
    Except Trap (List UInt8 × Nat) := do
  if 0 = number then
    let buf ← writeAt buf (0 : Nat) 0x30
    pure (buf, 1)
  else if number < 0 then
    let number ← toInt (-number)
    digitsLoop fuel number buf 0
  else
    digitsLoop fuel number buf 0

/-- `Itoa10`: the buffer it returns. -/
def itoa10 (fuel : Nat) (number : Int) (buf : List UInt8) : Except Trap (List UInt8) := do
  let (buf, i) ← writeDigits fuel number buf
  if number < 0 then
    let buf ← writeAt buf i minus
    let buf ← writeAt buf (i + 1 : Nat) 0
    reverse fuel buf (i + 1)
  else
    let buf ← writeAt buf i 0
    reverse fuel buf i

/-- Blanks are skipped. -/
def skipBlanks : List UInt8 → Except Trap (List UInt8)
  | [] => .error .outOfBounds
  | c :: s => if 0x20 = c then skipBlanks s else .ok (c :: s)

/-- The loop of `Atoi10`. -/
def readDecimal : List UInt8 → Int → Except Trap Int
  | [], _ => .error .outOfBounds
  | c :: s, result =>
      if 0x30 ≤ c ∧ c ≤ 0x39 then do
        let digit := (c.toNat : Int) - 0x30
        let product ← toInt (result * 10)
        let result ← toInt (product + digit)
        readDecimal s result
      else .ok result

/-- `Atoi10`; the text is `none` for `NULL`. -/
def atoi10 (s : Option (List UInt8)) : Except Trap Int :=
  match s with
  | none => .ok 0
  | some s => do
      let s ← skipBlanks s
      let (sign, s) ← readSign s
      let result ← readDecimal s 0
      toInt (result * sign)

/-! ## The text of a number -/

/-- The decimal text of a number, with a sign in front of a negative one. -/
def intText (n : Int) : List UInt8 :=
  (if n < 0 then [minus] else []) ++ decimalBytes n.natAbs

/-! ## Turning round -/

variable {l r mid ds seen : List UInt8}

/-- **The loop** turns the section from `i` up to `j` round. -/
theorem reverseLoop_eq (w : List UInt8) {fuel i j : Nat} (hi : i = l.length)
    (hj : j + 1 = l.length + w.length) (hfuel : w.length < fuel) :
    reverseLoop fuel (l ++ (w ++ r)) i j = .ok (l ++ (w.reverse ++ r)) := by
  induction w using List.bidirectionalRec generalizing fuel i j l r with
  | nil =>
      obtain ⟨fuel, rfl⟩ := Nat.exists_eq_add_of_lt hfuel
      rw [reverseLoop, if_neg (by simp at hj; omega)]
      rfl
  | singleton c =>
      obtain ⟨fuel, rfl⟩ := Nat.exists_eq_add_of_lt hfuel
      rw [reverseLoop, if_neg (by simp at hj; omega)]
      rfl
  | cons_append a mid b ih =>
      rw [List.length_cons, List.length_append, List.length_singleton] at hj hfuel
      obtain ⟨fuel, rfl⟩ : ∃ k, fuel = k + 1 := Nat.exists_eq_succ_of_ne_zero (by omega)
      have hshape : ∀ x y : UInt8, l ++ (x :: (mid ++ [y]) ++ r) = (l ++ x :: mid) ++ y :: r := by
        intro x y
        simp
      have hfirst : ∀ x y : UInt8, l ++ (x :: (mid ++ [y]) ++ r) = l ++ x :: (mid ++ y :: r) := by
        intro x y
        simp
      have hlast : j = (l ++ b :: mid).length := by simp; omega
      have hread : readAt (l ++ (a :: (mid ++ [b]) ++ r)) j = .ok b := by
        rw [hshape]
        exact readAt_split b (by simp; omega)
      have hwrite : writeAt (l ++ b :: (mid ++ b :: r)) j a = .ok (l ++ b :: (mid ++ a :: r)) := by
        rw [← hfirst, hshape, writeAt_split b a hlast, ← hshape, hfirst]
      rw [reverseLoop, if_pos (by omega), hread, hfirst, readAt_split a hi]
      simp only [trap_ok_bind]
      rw [writeAt_split a b hi, trap_ok_bind, hwrite, trap_ok_bind]
      have hinner := @ih (l ++ [b]) (a :: r) fuel (i + 1) (j - 1) (by simp [hi])
        (by simp; omega) (by omega)
      simpa using hinner

theorem reverse_eq (hpos : 0 < mid.length) (hlength : mid.length < 2 ^ 64) {fuel : Nat}
    (hfuel : mid.length < fuel) :
    reverse fuel (mid ++ r) mid.length = .ok (mid.reverse ++ r) := by
  have hlast : (mid.length + (2 ^ 64 - 1)) % 2 ^ 64 + 1 = mid.length := by omega
  exact @reverseLoop_eq [] r mid fuel 0 _ rfl (by simpa using hlast) hfuel

/-- The text is ended and turned round. -/
theorem end_reverse_eq {text : List UInt8} {fuel : Nat} (c : UInt8) (hpos : 0 < text.length)
    (hlength : text.length < 2 ^ 64) (hfuel : text.length < fuel) :
    (do
      let buf ← writeAt (text ++ c :: r) text.length 0
      reverse fuel buf text.length) = .ok (text.reverse ++ 0 :: r) := by
  rw [writeAt_split c 0 rfl, trap_ok_bind, reverse_eq hpos hlength hfuel]

/-! ## Writing -/

theorem ofInt_digit {d : Nat} (hd : d < 10) : UInt8.ofInt (0x30 + (d : Int)) = digitByte d := by
  apply UInt8.toNat_inj.mp
  rw [toNat_digitByte hd]
  simp [UInt8.ofInt]
  omega

/-- The loop writes the digits of the number, the lowest first. -/
theorem digitsLoop_eq {n fuel i : Nat} (hn : n < 2 ^ 31) (hi : i = l.length)
    (hroom : (Nat.digits 10 n).length ≤ r.length) (hfuel : (Nat.digits 10 n).length < fuel) :
    digitsLoop fuel n (l ++ r) i =
      .ok (l ++ ((Nat.digits 10 n).map digitByte ++ r.drop (Nat.digits 10 n).length),
        i + (Nat.digits 10 n).length) := by
  induction fuel generalizing n l r i with
  | zero => omega
  | succ fuel ih =>
      by_cases hzero : n = 0
      case pos =>
        subst hzero
        rfl
      case neg =>
        have hdigits : Nat.digits 10 n = n % 10 :: Nat.digits 10 (n / 10) :=
          Nat.digits_def' (by decide) (Nat.pos_of_ne_zero hzero)
        rw [hdigits, List.length_cons] at hroom hfuel
        obtain ⟨c, r, rfl⟩ :=
          List.exists_cons_of_length_pos (Nat.lt_of_lt_of_le (Nat.succ_pos _) hroom)
        rw [List.length_cons] at hroom
        have hrest := @ih (l ++ [digitByte (n % 10)]) r (n / 10) (i + 1) (by omega) (by simp [hi])
          (by omega) (by omega)
        have hmod : modInt n 10 = .ok ((n % 10 : Nat) : Int) := modInt_natCast hn (by decide)
        have hdiv : divInt n 10 = .ok ((n / 10 : Nat) : Int) := divInt_natCast hn (by decide)
        rw [digitsLoop, if_pos (by omega), hmod, trap_ok_bind,
          ofInt_digit (Nat.mod_lt n (by decide)), writeAt_split c _ hi, trap_ok_bind, hdiv,
          trap_ok_bind, List.append_cons, hrest, hdigits]
        simp [Nat.add_assoc, Nat.add_comm 1]

theorem digits_map_digitByte {n : Nat} (hn : n ≠ 0) :
    (Nat.digits 10 n).map digitByte = (decimalBytes n).reverse := by
  rw [decimalBytes, decimalDigits, if_neg hn, ← List.map_reverse, List.reverse_reverse]

/-- The loop from the begin of the buffer on. -/
theorem digitsLoop_zero {n fuel : Nat} (hzero : n ≠ 0) (hn : n < 2 ^ 31) {buf : List UInt8}
    (hroom : (decimalBytes n).length ≤ buf.length) (hfuel : (decimalBytes n).length < fuel) :
    digitsLoop fuel n buf 0 =
      .ok ((decimalBytes n).reverse ++ buf.drop (decimalBytes n).length,
        (decimalBytes n).length) := by
  have hbytes := digits_map_digitByte hzero
  have hlength : (Nat.digits 10 n).length = (decimalBytes n).length := by
    have hsame := congrArg List.length hbytes
    rwa [List.length_map, List.length_reverse] at hsame
  have hdigits := @digitsLoop_eq [] buf n fuel 0 hn rfl (by omega) (by omega)
  rwa [hlength, hbytes, Nat.zero_add] at hdigits

/-- The digits before the text is turned round. -/
theorem writeDigits_eq {number : Int} {fuel : Nat} (hmin : number ≠ -2 ^ 31)
    (hnumber : IsInt number) {buf : List UInt8}
    (hroom : (decimalBytes number.natAbs).length ≤ buf.length)
    (hfuel : (decimalBytes number.natAbs).length < fuel) :
    writeDigits fuel number buf =
      .ok ((decimalBytes number.natAbs).reverse ++ buf.drop (decimalBytes number.natAbs).length,
        (decimalBytes number.natAbs).length) := by
  unfold IsInt at hnumber
  rw [writeDigits]
  by_cases hzero : 0 = number
  case pos =>
    subst hzero
    obtain ⟨c, r, rfl⟩ := List.exists_cons_of_length_pos (Nat.lt_of_lt_of_le Nat.one_pos hroom)
    rfl
  case neg =>
    have hloop := digitsLoop_zero (show number.natAbs ≠ 0 by omega)
      (show number.natAbs < 2 ^ 31 by omega) hroom hfuel
    rw [if_neg hzero]
    by_cases hneg : number < 0
    case pos =>
      have habs : toInt (-number) = .ok (number.natAbs : Int) := by
        rw [toInt_of_isInt (by unfold IsInt; omega)]
        congr 1
        omega
      rw [if_pos hneg, habs, trap_ok_bind, hloop]
    case neg =>
      have habs : number = (number.natAbs : Int) := by omega
      rw [if_neg hneg]
      nth_rewrite 1 [habs]
      exact hloop

/-- The text of an `int` and the byte that ends it fit into twelve bytes. -/
theorem length_intText_lt {n : Int} (hn : IsInt n) : (intText n).length < 12 := by
  have hdigits : (decimalBytes n.natAbs).length ≤ 10 := by
    rw [decimalBytes, List.length_map, decimalDigits]
    split
    next => decide
    next =>
      rw [List.length_reverse, Nat.digits_length_le_iff (by decide)]
      unfold IsInt at hn
      omega
  have hsign : (if n < 0 then [minus] else []).length ≤ 1 := by split <;> simp
  rw [intText, List.length_append]
  omega

/-- **`Itoa10`** writes the text of the number and ends it. -/
theorem itoa10_eq {number : Int} {fuel : Nat} (hmin : number ≠ -2 ^ 31) (hnumber : IsInt number)
    {buf : List UInt8} (hroom : (intText number).length < buf.length) (hfuel : buf.length ≤ fuel) :
    itoa10 fuel number buf =
      .ok (intText number ++ 0 :: buf.drop ((intText number).length + 1)) := by
  have hshort := length_intText_lt hnumber
  have hpos : 0 < (decimalBytes number.natAbs).length := by
    rw [decimalBytes, List.length_map]
    exact List.length_pos_of_ne_nil (decimalDigits_ne_nil _)
  rw [itoa10]
  by_cases hneg : number < 0
  case pos =>
    have htext : intText number = minus :: decimalBytes number.natAbs := by
      rw [intText, if_pos hneg]
      rfl
    rw [htext, List.length_cons] at hroom hshort
    rw [writeDigits_eq hmin hnumber (by omega) (by omega), trap_ok_bind, htext]
    generalize decimalBytes number.natAbs = digits at *
    have hbehind : buf.drop digits.length =
        buf[digits.length] :: buf[digits.length + 1] :: buf.drop (digits.length + 1 + 1) := by
      rw [List.drop_eq_getElem_cons (by omega), List.drop_eq_getElem_cons (by omega)]
    generalize buf[digits.length] = a, buf[digits.length + 1] = b,
      buf.drop (digits.length + 1 + 1) = rest at *
    have hlength : (digits.reverse ++ [minus]).length = digits.length + 1 := by simp
    have hend := @end_reverse_eq rest (digits.reverse ++ [minus]) fuel b (by omega) (by omega)
      (by omega)
    rw [hlength] at hend
    simp only [if_pos hneg, hbehind]
    rw [writeAt_split a minus (by simp), trap_ok_bind, List.append_cons, hend]
    simp
  case neg =>
    have htext : intText number = decimalBytes number.natAbs := by
      rw [intText, if_neg hneg]
      rfl
    rw [htext] at hroom hshort
    rw [writeDigits_eq hmin hnumber (by omega) (by omega), trap_ok_bind, htext]
    generalize decimalBytes number.natAbs = digits at *
    have hbehind : buf.drop digits.length =
        buf[digits.length] :: buf.drop (digits.length + 1) :=
      List.drop_eq_getElem_cons (by omega)
    generalize buf[digits.length] = a, buf.drop (digits.length + 1) = rest at *
    have hlength : digits.reverse.length = digits.length := List.length_reverse
    have hend := @end_reverse_eq rest digits.reverse fuel a (by omega) (by omega) (by omega)
    rw [hlength, List.reverse_reverse] at hend
    simp only [if_neg hneg, hbehind]
    exact hend

/-- Without room for the opposite there is no text. -/
theorem itoa10_min (fuel : Nat) (buf : List UInt8) :
    itoa10 fuel (-2 ^ 31) buf = .error .overflow := by
  have hover : toInt (-(-2 ^ 31)) = .error .overflow := by decide
  rw [itoa10, writeDigits, if_neg (by decide), if_pos (by decide), hover]
  rfl

/-! ## Reading -/

theorem digitByte_isDecimal {d : Nat} (hd : d < 10) :
    0x30 ≤ digitByte d ∧ digitByte d ≤ 0x39 := by
  rw [UInt8.le_iff_toNat_le, UInt8.le_iff_toNat_le, toNat_digitByte hd]
  exact ⟨Nat.le_add_right 0x30 d, Nat.add_le_add_left (Nat.le_of_lt_succ hd) 0x30⟩

/-- No byte of a digit is skipped or is a sign. -/
theorem digitByte_apart {d : Nat} (hd : d < 10) :
    0x20 ≠ digitByte d ∧ digitByte d ≠ minus ∧ digitByte d ≠ plus := by
  have hnat := toNat_digitByte hd
  refine ⟨fun h => ?_, fun h => ?_, fun h => ?_⟩
  · rw [← h] at hnat
    simp at hnat
    omega
  · rw [h] at hnat
    simp [minus] at hnat
    omega
  · rw [h] at hnat
    simp [plus] at hnat
    omega

/-- The loop reads the number of the digits as long as it is an `int`. -/
theorem readDecimal_eq {digits seen : List Nat} {rest : List UInt8}
    (hdigits : ∀ d ∈ digits, d < 10) (hint : numeralValue 10 (seen ++ digits) < 2 ^ 31) :
    readDecimal (digits.map digitByte ++ 0 :: rest) (numeralValue 10 seen) =
      .ok (numeralValue 10 (seen ++ digits) : Nat) := by
  induction digits generalizing seen with
  | nil =>
      rw [List.map_nil, List.nil_append, readDecimal, if_neg (by decide), List.append_nil]
  | cons d digits ih =>
      rw [List.forall_mem_cons] at hdigits
      rw [List.append_cons seen d digits] at hint ⊢
      have hseen := @numeralValue_le_append 10 (seen ++ [d]) digits (by decide)
      have hnext := @numeralValue_concat 10 d seen
      have hproduct : toInt ((numeralValue 10 seen : Int) * 10) = .ok (numeralValue 10 seen * 10) :=
        toInt_of_isInt (by unfold IsInt; omega)
      have hsum : toInt ((numeralValue 10 seen : Int) * 10 + (((digitByte d).toNat : Int) - 0x30)) =
          .ok (numeralValue 10 (seen ++ [d]) : Nat) := by
        have hdigit : (numeralValue 10 seen : Int) * 10 + (((0x30 + d : Nat) : Int) - 0x30) =
            (numeralValue 10 (seen ++ [d]) : Nat) := by
          omega
        rw [toNat_digitByte hdigits.1, hdigit]
        exact toInt_of_isInt (by unfold IsInt; omega)
      rw [List.map_cons, List.cons_append, readDecimal, if_pos (digitByte_isDecimal hdigits.1),
        hproduct, trap_ok_bind, hsum, trap_ok_bind]
      exact ih hdigits.2 hint

/-- **`Atoi10`** reads a number from its text. -/
theorem atoi10_eq {n : Int} (hmin : n ≠ -2 ^ 31) (hn : IsInt n) (rest : List UInt8) :
    atoi10 (some (intText n ++ 0 :: rest)) = .ok n := by
  have hvalue := numeralValue_decimalDigits n.natAbs
  have hlt : ∀ d ∈ decimalDigits n.natAbs, d < 10 := fun _ => decimalDigits_lt
  have hread := @readDecimal_eq (decimalDigits n.natAbs) [] rest hlt
    (by rw [List.nil_append, hvalue]; unfold IsInt at hn; omega)
  rw [List.nil_append, hvalue, numeralValue_nil, Int.natCast_zero] at hread
  rw [intText, decimalBytes]
  by_cases hneg : n < 0
  case pos =>
    have hblank : ∀ s, skipBlanks (minus :: s) = .ok (minus :: s) := fun s => if_neg (by decide)
    have hsign : ∀ s, readSign (minus :: s) = .ok (-1, s) := fun s => by
      rw [readSign, if_pos rfl]
    have hback : (n.natAbs : Int) * -1 = n := by omega
    rw [if_pos hneg, List.singleton_append, List.cons_append]
    simp only [atoi10, hblank, trap_ok_bind, hsign, hread, hback]
    exact toInt_of_isInt hn
  case neg =>
    obtain ⟨d, ds, hds⟩ := List.exists_cons_of_ne_nil (decimalDigits_ne_nil n.natAbs)
    have hd : d ∈ decimalDigits n.natAbs := by
      rw [hds]
      exact List.mem_cons_self
    obtain ⟨hspace, hminus, hplus⟩ := digitByte_apart (hlt d hd)
    have hback : (n.natAbs : Int) * 1 = n := by omega
    rw [if_neg hneg, List.nil_append]
    rw [hds, List.map_cons, List.cons_append] at hread ⊢
    have hblank : ∀ s, skipBlanks (digitByte d :: s) = .ok (digitByte d :: s) :=
      fun s => if_neg hspace
    have hsign : ∀ s, readSign (digitByte d :: s) = .ok (1, digitByte d :: s) := by
      intro s
      rw [readSign, if_neg hminus, if_neg hplus]
    simp only [atoi10, hblank, trap_ok_bind, hsign, hread, hback]
    exact toInt_of_isInt hn

/-- **There and back**: `Itoa10` writes the text of an `int` and `Atoi10` reads it back, exactly if
the number is not the lowest one. -/
theorem round_trip_iff (n : Int) (hn : IsInt n) (buf : List UInt8)
    (hroom : (intText n).length < buf.length) :
    (∃ bound, ∀ fuel ≥ bound, ∃ rest,
      itoa10 fuel n buf = .ok (intText n ++ 0 :: rest) ∧
        atoi10 (some (intText n ++ 0 :: rest)) = .ok n) ↔ n ≠ -2 ^ 31 := by
  constructor
  · rintro ⟨bound, hall⟩ rfl
    obtain ⟨rest, hwrite, -⟩ := hall bound (Nat.le_refl bound)
    rw [itoa10_min] at hwrite
    cases hwrite
  · intro hmin
    exact ⟨buf.length, fun fuel hfuel =>
      ⟨_, itoa10_eq hmin hn hroom hfuel, atoi10_eq hmin hn _⟩⟩

/-- A buffer of twelve bytes, as the tests have it. -/
theorem round_trip_iff_minus_456 :
    (∃ bound, ∀ fuel ≥ bound, ∃ rest,
      itoa10 fuel (-456) (List.replicate 12 0) = .ok (intText (-456) ++ 0 :: rest) ∧
        atoi10 (some (intText (-456) ++ 0 :: rest)) = .ok (-456)) ↔ (-456 : Int) ≠ -2 ^ 31 :=
  round_trip_iff (-456) (by decide) (List.replicate 12 0)
    (Nat.lt_of_lt_of_le (length_intText_lt (by decide)) (by decide))

/-- The lowest `int` is not written. -/
theorem itoa10_lowest : IsInt (-2 ^ 31) ∧
    ∀ fuel, itoa10 fuel (-2 ^ 31) (List.replicate 12 0) = .error .overflow :=
  ⟨by decide, fun fuel => itoa10_min fuel _⟩

end DecimalRoundTrip
end Exercises
end InfinityLabs
