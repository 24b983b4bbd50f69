import InfinityLabs.Sorting.LinearSorting

/-!
# The radix sort

`RadixSort` sorts by one decimal digit after the other.  Before it sees that no digit is left it has
multiplied its exponent once more, and an `int` has no room for 10^10.
-/

namespace InfinityLabs
namespace Sorting

open Lib

/-- `BASE`. -/
def BASE : Nat := 10

/-- `GetMax`. -/
def getMax (arr : List Int) : Except Trap Int :=
  match arr with
  | [] => .error .outOfBounds
  | first :: rest => .ok (rest.foldl (fun max x => if x > max then x else max) first)

/-- `(x / exp) % BASE`. -/
def digit (exp x : Int) : Except Trap Int := do
  let quotient ← divInt x exp
  modInt quotient BASE

/-- `CountingSortDigit`, with whether there is memory. -/
def countingSortDigit (arr : List Int) (exp : Int) (allocated : Bool) : Except Trap (List Int) :=
  if allocated then do
    let (arr, _) ← sortByKey (digit exp) BASE arr
    .ok arr
  else .ok arr

/-- The loop of `RadixSort`; `fuel` bounds its passes. -/
def radixLoop (max : Int) (allocated : Bool) : Nat → List Int → Int → Except Trap (List Int)
  | 0, _, _ => .error .outOfFuel
  | fuel + 1, arr, exp => do
      let quotient ← divInt max exp
      if quotient > 0 then
        let arr ← countingSortDigit arr exp allocated
        -- computed also when this was the last digit of the largest element
        let exp ← toInt (exp * BASE)
        radixLoop max allocated fuel arr exp
      else .ok arr

/-- `RadixSort`. -/
def radixSort (arr : List Int) (allocated : Bool) (fuel : Nat) : Except Trap (List Int) := do
  let max ← getMax arr
  radixLoop max allocated fuel arr 1

/-! ## Digits -/

variable {arr : List Int} {max : Int} {d : Nat}

/-- The digit of a number at a place. -/
def digitAt (d : Nat) (x : Int) : Nat := x.toNat / 10 ^ d % 10

/-- The lower digits of the numbers are in order. -/
def OrderedBelow (d : Nat) (arr : List Int) : Prop :=
  arr.Pairwise fun a b => a.toNat % 10 ^ d ≤ b.toNat % 10 ^ d

/-- The digits of the numbers that are not negative are keys. -/
theorem hasKeys_digit (h : ∀ x ∈ arr, 0 ≤ x ∧ x < 2 ^ 31) (d : Nat) :
    HasKeys (digit ((10 ^ d : Nat) : Int)) (digitAt d) BASE arr := by
  intro x hx
  obtain ⟨hnonneg, hlt⟩ := h x hx
  obtain ⟨n, rfl⟩ := Int.eq_ofNat_of_zero_le hnonneg
  have hn : n < 2 ^ 31 := by omega
  have hquotient : n / 10 ^ d < 2 ^ 31 := Nat.lt_of_le_of_lt (Nat.div_le_self n _) hn
  refine ⟨?_, Nat.mod_lt _ (by decide)⟩
  rw [digit, divInt_natCast hn (Nat.pow_pos (by decide)), trap_ok_bind, BASE,
    modInt_natCast hquotient (by decide)]
  rfl

/-- A stable pass by the next digit orders by one digit more. -/
theorem orderedBelow_succ (h : OrderedBelow d arr) :
    OrderedBelow (d + 1) (buckets (digitAt d) arr BASE) := by
  refine (pairwise_buckets h BASE).imp fun {a b} hab => ?_
  have hltA := Nat.mod_lt a.toNat (Nat.pow_pos (by decide : 0 < 10) (n := d))
  rw [Nat.mod_pow_succ, Nat.mod_pow_succ]
  unfold digitAt at hab
  rcases hab with hlt | ⟨heq, hle⟩
  · have hmul := Nat.mul_le_mul_left (10 ^ d) (Nat.succ_le_of_lt hlt)
    rw [Nat.mul_succ] at hmul
    omega
  · rw [heq]
    omega

/-- Numbers with no further digits are in order where these are. -/
theorem OrderedBelow.ordered (h : OrderedBelow d arr) (hnonneg : ∀ x ∈ arr, 0 ≤ x)
    (hlt : ∀ x ∈ arr, x.toNat < 10 ^ d) : arr.Pairwise (· ≤ ·) := by
  refine h.imp_of_mem fun {a b} ha hb hab => ?_
  rw [Nat.mod_eq_of_lt (hlt a ha), Nat.mod_eq_of_lt (hlt b hb)] at hab
  have hnonnegB := hnonneg b hb
  omega

/-! ## The loop -/

/-- A pass puts the elements in the order of one digit. -/
theorem countingSortDigit_eq (h : ∀ x ∈ arr, 0 ≤ x ∧ x < 2 ^ 31) (d : Nat)
    (hlength : arr.length < 2 ^ 31) :
    countingSortDigit arr ((10 ^ d : Nat) : Int) true = .ok (buckets (digitAt d) arr BASE) := by
  rw [countingSortDigit, if_pos rfl, sortByKey_eq (hasKeys_digit h d) (by decide) hlength,
    trap_ok_bind]

/-- The counts of too many elements do not fit. -/
theorem countingSortDigit_error (h : ∀ x ∈ arr, 0 ≤ x ∧ x < 2 ^ 31) (d : Nat)
    (hlength : 2 ^ 31 ≤ arr.length) :
    ∃ t, countingSortDigit arr ((10 ^ d : Nat) : Int) true = .error t := by
  obtain ⟨t, ht⟩ := sortByKey_error (hasKeys_digit h d) (by decide) hlength
  exact ⟨t, by rw [countingSortDigit, if_pos rfl, ht, trap_error_bind]⟩

/-- The next pass, while a digit is left. -/
theorem radixLoop_succ {n : Nat} (hn : n < 2 ^ 31) (fuel : Nat) :
    radixLoop n true (fuel + 1) arr ((10 ^ d : Nat) : Int) =
      if n < 10 ^ d then .ok arr
      else countingSortDigit arr ((10 ^ d : Nat) : Int) true >>= fun arr =>
        toInt ((10 ^ (d + 1) : Nat) : Int) >>= fun exp => radixLoop n true fuel arr exp := by
  have hpos : 0 < 10 ^ d := Nat.pow_pos (by decide)
  have hexp : ((10 ^ d : Nat) : Int) * BASE = ((10 ^ (d + 1) : Nat) : Int) := by
    rw [BASE, ← Int.natCast_mul, Nat.pow_succ]
  rw [radixLoop, divInt_natCast hn hpos, trap_ok_bind, hexp]
  by_cases hlt : n < 10 ^ d
  case pos => rw [if_pos hlt, Nat.div_eq_of_lt hlt, if_neg (by decide)]
  case neg =>
    have hquotient : 0 < n / 10 ^ d := Nat.div_pos (Nat.le_of_not_lt hlt) hpos
    rw [if_neg hlt, if_pos (by omega)]

/-- Where no digit is left the loop ends. -/
theorem radixLoop_end {n : Nat} (hint : n < 2 ^ 31) (hend : n < 10 ^ d)
    (hall : ∀ x ∈ arr, 0 ≤ x ∧ x ≤ n) (hordered : OrderedBelow d arr) :
    (∀ fuel, 0 < fuel → radixLoop n true fuel arr ((10 ^ d : Nat) : Int) = .ok arr) ∧
      IsSortOf arr arr := by
  refine ⟨fun fuel hfuel => ?_, .refl arr, hordered.ordered (fun x hx => (hall x hx).1) fun x hx => ?_⟩
  · obtain ⟨fuel, rfl⟩ : ∃ k, fuel = k + 1 := ⟨fuel - 1, by omega⟩
    rw [radixLoop_succ hint, if_pos hend]
  · have hx' := hall x hx
    omega

/-- The loop sorts numbers of at most nine digits. -/
theorem radixLoop_eq {n left : Nat} (hn : n < 10 ^ 9) (hleft : d + left = 9)
    (hlength : arr.length < 2 ^ 31) (hall : ∀ x ∈ arr, 0 ≤ x ∧ x ≤ n)
    (hordered : OrderedBelow d arr) :
    ∃ sorted, (∀ fuel, left < fuel →
        radixLoop n true fuel arr ((10 ^ d : Nat) : Int) = .ok sorted) ∧ IsSortOf sorted arr := by
  have hint : n < 2 ^ 31 := by omega
  induction left generalizing d arr with
  | zero =>
      obtain rfl : d = 9 := hleft
      obtain ⟨hloop, hsorted⟩ := radixLoop_end hint hn hall hordered
      exact ⟨arr, hloop, hsorted⟩
  | succ left ih =>
      have hrange : ∀ x ∈ arr, 0 ≤ x ∧ x < 2 ^ 31 := fun x hx => by
        have hx' := hall x hx
        omega
      by_cases hend : n < 10 ^ d
      case pos =>
        obtain ⟨hloop, hsorted⟩ := radixLoop_end hint hend hall hordered
        exact ⟨arr, fun fuel hfuel => hloop fuel (by omega), hsorted⟩
      case neg =>
        have hperm : (buckets (digitAt d) arr BASE).Perm arr :=
          buckets_perm fun x hx => (hasKeys_digit hrange d x hx).2
        obtain ⟨sorted, hloop, hsorted⟩ := ih (by omega : d + 1 + left = 9)
          (hperm.length_eq ▸ hlength) (fun x hx => hall x (hperm.subset hx))
          (orderedBelow_succ hordered)
        refine ⟨sorted, fun fuel hfuel => ?_, hsorted.of_perm hperm⟩
        obtain ⟨fuel, rfl⟩ : ∃ k, fuel = k + 1 := ⟨fuel - 1, by omega⟩
        have hexp : 10 ^ (d + 1) ≤ 10 ^ 9 := Nat.pow_le_pow_right (by decide) (by omega)
        have hfits : IsInt ((10 ^ (d + 1) : Nat) : Int) := isInt_natCast.mpr (by omega)
        rw [radixLoop_succ hint, if_neg hend, countingSortDigit_eq hrange d hlength, trap_ok_bind,
          toInt_of_isInt hfits, trap_ok_bind]
        exact hloop fuel (by omega)

/-- With ten digits the exponent does not fit in the end. -/
theorem radixLoop_error {n : Nat} (hlarge : 10 ^ 9 ≤ n) (hn : n < 2 ^ 31) (hd : d ≤ 9)
    (fuel : Nat) (arr : List Int) :
    ∃ t, radixLoop n true fuel arr ((10 ^ d : Nat) : Int) = .error t := by
  induction fuel generalizing d arr with
  | zero => exact ⟨.outOfFuel, rfl⟩
  | succ fuel ih =>
      have hpow : 10 ^ d ≤ 10 ^ 9 := Nat.pow_le_pow_right (by decide) hd
      rw [radixLoop_succ hn, if_neg (by omega)]
      cases hpass : countingSortDigit arr ((10 ^ d : Nat) : Int) true with
      | error t => exact ⟨t, trap_error_bind ..⟩
      | ok arr' =>
          rw [trap_ok_bind]
          rcases Nat.lt_or_eq_of_le hd with hlt | rfl
          · have hexp : 10 ^ (d + 1) ≤ 10 ^ 9 := Nat.pow_le_pow_right (by decide) hlt
            have hfits : IsInt ((10 ^ (d + 1) : Nat) : Int) := isInt_natCast.mpr (by omega)
            rw [toInt_of_isInt hfits, trap_ok_bind]
            exact ih hlt arr'
          · exact ⟨.overflow, rfl⟩

/-! ## The sort -/

/-- The largest element. -/
theorem getMax_eq {arr : List Int} (hne : arr ≠ []) :
    ∃ max, getMax arr = .ok max ∧ max ∈ arr ∧ ∀ x ∈ arr, x ≤ max := by
  obtain ⟨first, rest, rfl⟩ := List.exists_cons_of_ne_nil hne
  have hloop : ∀ max, ∃ max', rest.foldl (fun max x => if x > max then x else max) max = max' ∧
      (max' = max ∨ max' ∈ rest) ∧ max ≤ max' ∧ ∀ x ∈ rest, x ≤ max' := by
    clear hne
    induction rest with
    | nil => exact fun max => ⟨max, rfl, Or.inl rfl, Int.le_refl max, by simp⟩
    | cons x rest ih =>
        intro max
        obtain ⟨max', hrest, hmem, hle, hall⟩ := ih (if x > max then x else max)
        refine ⟨max', hrest, ?_, ?_, List.forall_mem_cons.mpr ⟨?_, hall⟩⟩
        · split at hmem <;> grind
        · split at hle <;> omega
        · split at hle <;> omega
  obtain ⟨max, hmax, hmem, hle, hall⟩ := hloop first
  exact ⟨max, congrArg _ hmax, List.mem_cons.mpr hmem, List.forall_mem_cons.mpr ⟨hle, hall⟩⟩

/-- `RadixSort` ends and has sorted the array. -/
def RadixSorts (arr : IntBuffer) : Prop :=
  ∃ sorted, (∀ fuel, 10 < fuel → radixSort arr.elements true fuel = .ok sorted) ∧
    IsSortOf sorted arr.elements

/-- `RadixSort` sorts an array of numbers that are not negative exactly where these are all zero,
or are all below 10^9 and less than 2^31 in number: else an `int` overflows. -/
theorem radixSort_sorts_iff (arr : IntBuffer) (hne : arr.elements ≠ [])
    (hnonneg : ∀ x ∈ arr.elements, 0 ≤ x) :
    RadixSorts arr ↔ (∀ x ∈ arr.elements, x = 0) ∨
      (∀ x ∈ arr.elements, x < 10 ^ 9) ∧ arr.elements.length < 2 ^ 31 := by
  obtain ⟨max, hmax, hmem, hall⟩ := getMax_eq hne
  obtain ⟨n, rfl⟩ := Int.eq_ofNat_of_zero_le (hnonneg max hmem)
  have hint : n < 2 ^ 31 := by
    have hmaxInt := (arr.isInt _ hmem).2
    omega
  have hrange : ∀ x ∈ arr.elements, 0 ≤ x ∧ x < 2 ^ 31 := fun x hx =>
    ⟨hnonneg x hx, (arr.isInt x hx).2⟩
  have hbounds : ∀ x ∈ arr.elements, 0 ≤ x ∧ x ≤ n := fun x hx => ⟨hnonneg x hx, hall x hx⟩
  have hordered : OrderedBelow 0 arr.elements :=
    List.pairwise_of_forall fun a b => by simp [Nat.mod_one]
  have hcall : ∀ fuel, radixSort arr.elements true fuel =
      radixLoop n true fuel arr.elements ((10 ^ 0 : Nat) : Int) := fun fuel => by
    rw [radixSort, hmax, trap_ok_bind]
    rfl
  constructor
  · rintro ⟨sorted, hsorts, -⟩
    have hsorted := (hcall 11).symm.trans (hsorts 11 (by decide))
    rcases Nat.eq_zero_or_pos n with rfl | hpos
    · refine Or.inl fun x hx => ?_
      have hx' := hbounds x hx
      omega
    · refine Or.inr ⟨fun x hx => ?_, ?_⟩
      · by_contra hlarge
        have hx' := hbounds x hx
        obtain ⟨t, ht⟩ := radixLoop_error (by omega) hint (Nat.zero_le 9) 11 arr.elements
        rw [ht] at hsorted
        cases hsorted
      · by_contra hlong
        obtain ⟨t, ht⟩ := countingSortDigit_error hrange 0 (Nat.le_of_not_lt hlong)
        rw [radixLoop_succ hint, if_neg (by omega), ht, trap_error_bind] at hsorted
        cases hsorted
  · rintro (hzero | ⟨hsmall, hlength⟩)
    · have hn : n = 0 := by
        have hmaxZero := hzero _ hmem
        omega
      obtain ⟨hloop, hsorted⟩ := radixLoop_end hint (by omega : n < 10 ^ 0) hbounds hordered
      exact ⟨arr.elements, fun fuel hfuel => (hcall fuel).trans (hloop fuel (by omega)), hsorted⟩
    · have hn : n < 10 ^ 9 := by
        have hmaxSmall := hsmall _ hmem
        omega
      obtain ⟨sorted, hloop, hsorted⟩ :=
        radixLoop_eq hn (Nat.zero_add 9) hlength hbounds hordered
      exact ⟨sorted, fun fuel hfuel => (hcall fuel).trans (hloop fuel (by omega)), hsorted⟩

/-- Numbers of up to nine digits. -/
def nineDigits : IntBuffer where
  elements := [999999999, 170, 45, 802, 45]
  isInt := by decide
  inMemory := by decide

/-- They are sorted. -/
theorem radixSort_sorts_nineDigits :
    RadixSorts nineDigits ↔ (∀ x ∈ nineDigits.elements, x = 0) ∨
      (∀ x ∈ nineDigits.elements, x < 10 ^ 9) ∧ nineDigits.elements.length < 2 ^ 31 :=
  radixSort_sorts_iff nineDigits (by decide) (by decide)

/-- One number of ten digits. -/
def tenDigits : IntBuffer where
  elements := [1000000000]
  isInt := by decide
  inMemory := by decide

/-- The exponent overflows, although the number is of type `int`. -/
theorem radixSort_not_sorts :
    ¬ ∀ arr : IntBuffer, arr.elements ≠ [] → (∀ x ∈ arr.elements, 0 ≤ x) → RadixSorts arr := by
  intro h
  obtain ⟨sorted, hsorts, -⟩ := h tenDigits (by decide) (by decide)
  obtain ⟨t, ht⟩ := radixLoop_error (Nat.le_refl (10 ^ 9)) (by decide) (Nat.zero_le 9) 11 [1000000000]
  exact absurd (ht.symm.trans (hsorts 11 (by decide))) (by simp)

example : radixSort [1000000000] true 11 = .error .overflow := by decide

end Sorting
end InfinityLabs
