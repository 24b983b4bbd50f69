import InfinityLabs.Lib.LeastNumeral

/-!
# Deleting digits

`SmallestNum` of `quizzes/removekdigittomakesmallet.cpp`: a stack of digits, from which larger ones
are taken off before a digit is put on, as long as there is one to delete.  What is left to delete
goes off the end.

The stack has its last digit first.
-/

namespace InfinityLabs
namespace Quizzes
namespace SmallestNum

open Lib

/-! ## The code -/

/-- The inner loop: larger digits are taken off the stack. -/
def popGreater (c : UInt8) : List UInt8 → Int → List UInt8 × Int
  | [], k => ([], k)
  | back :: st, k => if k > 0 ∧ back > c then popGreater c st (k - 1) else (back :: st, k)

/-- The loop over the digits. -/
def pushDigits : List UInt8 → List UInt8 → Int → List UInt8 × Int
  | [], st, k => (st, k)
  | c :: num, st, k =>
      let (st, k) := popGreater c st k
      pushDigits num (c :: st) k

/-- What is left to delete goes off the stack. -/
def popRest : List UInt8 → Int → List UInt8
  | [], _ => []
  | back :: st, k => if k > 0 then popRest st (k - 1) else back :: st

/-- The loop over leading zeros: the place behind them. -/
def skipZeros : List UInt8 → Nat
  | [] => 0
  | c :: st => if c = 0x30 then skipZeros st + 1 else 0

/-- `SmallestNum`. -/
def smallestNum (num : List UInt8) (k : Int) : List UInt8 :=
  let (st, k) := pushDigits num [] k
  let st := (popRest st k).reverse
  let i := skipZeros st
  if i = st.length then [0x30] else st.drop i

/-! ## Digits -/

/-- The digit of a character. -/
def digitOf (c : UInt8) : Nat := c.toNat - 0x30

/-- The characters of a string of digits. -/
def IsDigits (num : List UInt8) : Prop := ∀ c ∈ num, 0x30 ≤ c ∧ c ≤ 0x39

/-- The number of a string of digits. -/
def digitsValue (num : List UInt8) : Nat := weightValue 10 digitOf num

variable {num st : List UInt8} {c d : UInt8} {k : Nat}

theorem toNat_of_isDigits (h : IsDigits num) (hc : c ∈ num) :
    0x30 ≤ c.toNat ∧ c.toNat ≤ 0x39 := by
  obtain ⟨hlow, hhigh⟩ := h c hc
  rw [UInt8.le_iff_toNat_le] at hlow hhigh
  exact ⟨hlow, hhigh⟩

theorem IsDigits.lt_ten (h : IsDigits num) : ∀ c ∈ num, digitOf c < 10 := by
  intro c hc
  have hnat := toNat_of_isDigits h hc
  unfold digitOf
  omega

theorem IsDigits.sublist {part : List UInt8} (h : IsDigits num) (hsub : part.Sublist num) :
    IsDigits part :=
  fun c hc => h c (hsub.mem hc)

/-- Digits compare as their characters. -/
theorem digitOf_lt_iff (h : IsDigits num) (hc : c ∈ num) (hd : d ∈ num) :
    digitOf c < digitOf d ↔ d > c := by
  have hcnat := toNat_of_isDigits h hc
  have hdnat := toNat_of_isDigits h hd
  rw [gt_iff_lt, UInt8.lt_iff_toNat_lt]
  unfold digitOf
  omega

/-- A digit is written back as its character. -/
theorem digitByte_digitOf (h : IsDigits num) (hc : c ∈ num) : digitByte (digitOf c) = c := by
  have hnat := toNat_of_isDigits h hc
  apply UInt8.toNat_inj.mp
  rw [toNat_digitByte (by unfold digitOf; omega), digitOf]
  omega

/-! ## The stack -/

/-- The stack rises as long as there is something to delete, and what is best to leave of it and of
the digits to come is best of all digits. -/
structure Greedy (num : List UInt8) (k : Nat) (st rest : List UInt8) (left : Nat) : Prop where
  rising : 0 < left → Rising digitOf st.reverse
  digits : IsDigits (st.reverse ++ rest)
  room : left ≤ (st.reverse ++ rest).length
  best : ∀ kept, IsLeastLeft 10 digitOf left (st.reverse ++ rest) kept →
    IsLeastLeft 10 digitOf k num kept

/-- **Taking off** larger digits keeps the invariant, and ends at a digit that is not larger. -/
theorem popGreater_greedy {rest : List UInt8} {left : Nat}
    (h : Greedy num k st (c :: rest) left) :
    ∃ (st' : List UInt8) (left' : Nat), popGreater c st left = (st', (left' : Int)) ∧
      Greedy num k st' (c :: rest) left' ∧
      (0 < left' → ∀ back ∈ st'.head?, digitOf back ≤ digitOf c) := by
  induction st generalizing left with
  | nil => exact ⟨[], left, rfl, h, fun _ back hback => by cases hback⟩
  | cons back st ih =>
      have hword : (back :: st).reverse ++ c :: rest = st.reverse ++ back :: c :: rest := by simp
      obtain ⟨hrising, hdigits, hroom, hbest⟩ := h
      rw [hword] at hdigits hroom hbest
      have hlower := digitOf_lt_iff hdigits (show c ∈ _ by simp) (show back ∈ _ by simp)
      by_cases hpop : (left : Int) > 0 ∧ back > c
      case pos =>
        obtain ⟨left, rfl⟩ : ∃ l, left = l + 1 := Nat.exists_eq_succ_of_ne_zero (by omega)
        have hback : Rising digitOf (st.reverse ++ [back]) := by
          rw [← List.reverse_cons]
          exact hrising (Nat.succ_pos left)
        have hsub : (st.reverse ++ c :: rest).Sublist (st.reverse ++ back :: c :: rest) :=
          List.Sublist.append (List.Sublist.refl _) (List.sublist_cons_self _ _)
        have hnext : Greedy num k st (c :: rest) left := by
          refine ⟨fun _ => (List.pairwise_append.mp hback).1, hdigits.sublist hsub, ?_,
            fun kept hkept => hbest kept ?_⟩
          · simp only [List.length_append, List.length_cons] at hroom ⊢
            omega
          · refine hkept.of_without (by decide) (fun y hy => hdigits.lt_ten y ?_)
              (hlower.mpr hpop.2) hback
            exact List.mem_append_right _ (List.mem_cons_of_mem back hy)
        obtain ⟨st', left', hrun, hgreedy, hend⟩ := ih hnext
        refine ⟨st', left', ?_, hgreedy, hend⟩
        rw [popGreater, if_pos hpop, show ((left + 1 : Nat) : Int) - 1 = left by omega, hrun]
      case neg =>
        refine ⟨back :: st, left, by rw [popGreater, if_neg hpop],
          ⟨hrising, by rwa [hword], by rwa [hword], by rwa [hword]⟩, fun hleft b hb => ?_⟩
        rw [← Option.mem_some.mp hb]
        by_contra hgt
        exact hpop ⟨by omega, hlower.mp (Nat.lt_of_not_le hgt)⟩

theorem le_back (h : Rising digitOf (d :: st).reverse) (hc : c ∈ (d :: st).reverse) :
    digitOf c ≤ digitOf d := by
  rw [List.reverse_cons] at h hc
  rcases List.mem_append.mp hc with hin | hlast
  · exact (List.pairwise_append.mp h).2.2 c hin d (List.mem_singleton_self d)
  · rw [List.mem_singleton.mp hlast]

/-- **The loop** over the digits keeps the invariant. -/
theorem pushDigits_greedy {rest : List UInt8} {left : Nat} (h : Greedy num k st rest left) :
    ∃ (st' : List UInt8) (left' : Nat), pushDigits rest st left = (st', (left' : Int)) ∧
      Greedy num k st' [] left' := by
  induction rest generalizing st left with
  | nil => exact ⟨st, left, rfl, h⟩
  | cons c rest ih =>
      obtain ⟨st', left', hpop, hgreedy, hend⟩ := popGreater_greedy h
      have hword : (c :: st').reverse ++ rest = st'.reverse ++ c :: rest := by simp
      have hnext : Greedy num k (c :: st') rest left' := by
        refine ⟨fun hleft => ?_, by rw [hword]; exact hgreedy.digits,
          by rw [hword]; exact hgreedy.room, by rw [hword]; exact hgreedy.best⟩
        rw [List.reverse_cons]
        refine List.pairwise_append.mpr ⟨hgreedy.rising hleft, List.pairwise_singleton _ c, ?_⟩
        intro y hy z hz
        rw [List.mem_singleton.mp hz]
        cases st' with
        | nil => cases hy
        | cons back st' =>
            exact Nat.le_trans (le_back (hgreedy.rising hleft) hy) (hend hleft back rfl)
      obtain ⟨st'', left'', hpush, hdone⟩ := ih hnext
      refine ⟨st'', left'', ?_, hdone⟩
      rw [pushDigits, hpop]
      exact hpush

/-! ## The end -/

theorem popRest_eq (st : List UInt8) (left : Nat) : popRest st left = st.drop left := by
  induction st generalizing left with
  | nil => rw [popRest, List.drop_nil]
  | cons back st ih =>
      cases left with
      | zero => rfl
      | succ left =>
          rw [popRest, if_pos (by omega), show ((left + 1 : Nat) : Int) - 1 = left by omega, ih,
            List.drop_succ_cons]

theorem skipZeros_eq (st : List UInt8) :
    (if skipZeros st = st.length then [0x30] else st.drop (skipZeros st)) =
      if st.dropWhile (· = 0x30) = [] then [0x30] else st.dropWhile (· = 0x30) := by
  induction st with
  | nil => rfl
  | cons c st ih =>
      by_cases hc : c = 0x30
      case pos =>
        rw [skipZeros, if_pos hc, List.length_cons, List.drop_succ_cons,
          List.dropWhile_cons_of_pos (by simpa using hc), ← ih]
        simp only [Nat.add_right_cancel_iff]
      case neg =>
        rw [skipZeros, if_neg hc, List.length_cons, List.dropWhile_cons_of_neg (by simpa using hc),
          if_neg (Nat.succ_ne_zero _).symm, if_neg (List.cons_ne_nil c st)]
        rfl

theorem digitOf_eq_zero_iff (h : IsDigits num) (hc : c ∈ num) : digitOf c = 0 ↔ c = 0x30 := by
  have hnat := toNat_of_isDigits h hc
  rw [← UInt8.toNat_inj, digitOf]
  simp
  omega

theorem map_dropWhile_zeros (h : IsDigits num) :
    (num.map digitOf).dropWhile (· = 0) = (num.dropWhile (· = 0x30)).map digitOf := by
  induction num with
  | nil => rfl
  | cons c num ih =>
      have hzero := digitOf_eq_zero_iff h List.mem_cons_self
      rw [List.map_cons]
      by_cases hc : c = 0x30
      case pos =>
        rw [List.dropWhile_cons_of_pos (by simpa using hzero.mpr hc),
          List.dropWhile_cons_of_pos (by simpa using hc),
          ih (h.sublist (List.sublist_cons_self c num))]
      case neg =>
        rw [List.dropWhile_cons_of_neg (by simpa using fun hd => hc (hzero.mp hd)),
          List.dropWhile_cons_of_neg (by simpa using hc), List.map_cons]

/-- Without its leading zeros a string of digits is the text of its number. -/
theorem dropWhile_eq_decimalBytes (h : IsDigits num) :
    (if num.dropWhile (· = 0x30) = [] then [0x30] else num.dropWhile (· = 0x30)) =
      decimalBytes (digitsValue num) := by
  have hdigits : ∀ d ∈ num.map digitOf, d < 10 := by
    intro d hd
    obtain ⟨c, hc, rfl⟩ := List.mem_map.mp hd
    exact h.lt_ten c hc
  have hback :
      ((num.dropWhile (· = 0x30)).map digitOf).map digitByte = num.dropWhile (· = 0x30) := by
    have hrest := h.sublist (List.dropWhile_sublist (· = 0x30))
    rw [List.map_map]
    exact (List.map_congr_left fun c hc => digitByte_digitOf hrest hc).trans (List.map_id _)
  rw [decimalBytes, digitsValue, weightValue, decimalDigits_numeralValue hdigits,
    map_dropWhile_zeros h]
  by_cases hnil : num.dropWhile (· = 0x30) = []
  case pos => rw [if_pos hnil, hnil, List.map_nil, if_pos rfl]; rfl
  case neg => rw [if_neg hnil, if_neg (by simpa using hnil), hback]

/-- **`SmallestNum`** returns the text of the least number that is left when `k` digits are
deleted. -/
theorem smallestNum_least (num : List UInt8) (h : IsDigits num) (k : Nat) (hk : k ≤ num.length) :
    ∃ kept, IsLeastLeft 10 digitOf k num kept ∧
      smallestNum num k = decimalBytes (digitsValue kept) := by
  have hstart : Greedy num k [] num k :=
    ⟨fun _ => List.Pairwise.nil, h, hk, fun _ hkept => hkept⟩
  obtain ⟨st, left, hrun, hrising, hdigits, hroom, hbest⟩ := pushDigits_greedy hstart
  rw [List.append_nil] at hdigits hroom hbest
  have hrest : (popRest st left).reverse = st.reverse.take (st.reverse.length - left) := by
    rw [popRest_eq, List.reverse_drop, List.length_reverse]
  have hleast : IsLeastLeft 10 digitOf left st.reverse
      (st.reverse.take (st.reverse.length - left)) := by
    by_cases hleft : 0 < left
    case pos => exact (hrising hleft).isLeastLeft hroom
    case neg =>
      obtain rfl : left = 0 := Nat.eq_zero_of_not_pos hleft
      rw [Nat.sub_zero, List.take_length]
      exact isLeastLeft_zero _
  refine ⟨_, hbest _ hleast, ?_⟩
  rw [smallestNum, hrun]
  simp only
  rw [hrest, skipZeros_eq, dropWhile_eq_decimalBytes (hdigits.sublist (List.take_sublist _ _))]

/-- One digit of four is deleted. -/
theorem smallestNum_least_1402 : ∃ kept, IsLeastLeft 10 digitOf 1 [0x31, 0x34, 0x30, 0x32] kept ∧
    smallestNum [0x31, 0x34, 0x30, 0x32] (1 : Nat) = decimalBytes (digitsValue kept) :=
  smallestNum_least [0x31, 0x34, 0x30, 0x32] (by unfold IsDigits; simp) 1 (by decide)

end SmallestNum
end Quizzes
end InfinityLabs
