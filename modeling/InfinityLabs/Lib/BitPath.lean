import Mathlib.Data.Nat.Bitwise
import Mathlib.Data.Nat.Find
import Mathlib.Tactic.Common

/-!
# Numbers as paths of bits

The low `d` bits of a number, the highest first, are a path of length `d` in a
binary tree.  Below `2 ^ d` a number is its path.  A path that has consumed the
bits from `r` on leads to level `r`; numbers that agree on these bits share it.
-/

namespace InfinityLabs
namespace Lib

/-- The low `d` bits of `h`, the highest first. -/
def pathOf : Nat → Nat → List Bool
  | 0, _ => []
  | d + 1, h => h.testBit d :: pathOf d h

@[simp] theorem length_pathOf (d h : Nat) : (pathOf d h).length = d := by
  induction d with
  | zero => rfl
  | succ d ih => simp [pathOf, ih]

/-- The bits below `d` determine the path. -/
theorem pathOf_congr {d h k : Nat} (hbits : ∀ i < d, h.testBit i = k.testBit i) :
    pathOf d h = pathOf d k := by
  induction d with
  | zero => rfl
  | succ d ih =>
      rw [pathOf, pathOf, hbits d (Nat.lt_succ_self d),
        ih fun i hi => hbits i (Nat.lt_succ_of_lt hi)]

/-- A path determines the bits on it. -/
theorem testBit_eq_of_pathOf_eq {d h k : Nat} (hpath : pathOf d h = pathOf d k) {i : Nat}
    (hi : i < d) : h.testBit i = k.testBit i := by
  induction d with
  | zero => cases hi
  | succ d ih =>
      rw [pathOf, pathOf, List.cons.injEq] at hpath
      rcases Nat.eq_or_lt_of_le (Nat.le_of_lt_succ hi) with rfl | hlt
      · exact hpath.1
      · exact ih hpath.2 hlt

/-- Below `2 ^ d` a number is its path. -/
theorem pathOf_inj {d h k : Nat} (hh : h < 2 ^ d) (hk : k < 2 ^ d) :
    pathOf d h = pathOf d k ↔ h = k := by
  constructor
  · intro hpath
    apply Nat.eq_of_testBit_eq
    intro i
    by_cases hi : i < d
    · exact testBit_eq_of_pathOf_eq hpath hi
    · have hle : 2 ^ d ≤ 2 ^ i := Nat.pow_le_pow_right Nat.two_pos (Nat.le_of_not_lt hi)
      rw [Nat.testBit_lt_two_pow (Nat.lt_of_lt_of_le hh hle),
        Nat.testBit_lt_two_pow (Nat.lt_of_lt_of_le hk hle)]
  · rintro rfl
    rfl

/-- The bits from `z` on determine the part of a path above level `z`. -/
theorem take_pathOf_congr {d z h k : Nat} (hbits : ∀ i, z ≤ i → h.testBit i = k.testBit i) :
    (pathOf d h).take (d - z) = (pathOf d k).take (d - z) := by
  induction d with
  | zero => rfl
  | succ d ih =>
      by_cases hz : z ≤ d
      · rw [Nat.succ_sub hz, pathOf, pathOf, List.take_succ_cons, List.take_succ_cons,
          hbits d hz, ih]
      · have hnone : d + 1 - z = 0 := by omega
        rw [hnone, List.take_zero, List.take_zero]

/-! ## Prefixes of a path -/

/-- `p` consumes the bits of `h` from `d` down to level `r`. -/
def Leads (d r h : Nat) (p : List Bool) : Prop :=
  pathOf d h = p ++ pathOf r h

namespace Leads

variable {d r h k : Nat} {p : List Bool}

/-- The empty path consumes nothing. -/
theorem nil (d h : Nat) : Leads d d h [] := rfl

/-- A path consumes one bit for each level. -/
theorem length_add (hp : Leads d r h p) : p.length + r = d := by
  have hlength := congrArg List.length hp
  simpa using hlength.symm

/-- One more bit leads one level down. -/
theorem snoc (hp : Leads d (r + 1) h p) : Leads d r h (p ++ [h.testBit r]) := by
  have hpath : pathOf d h = p ++ pathOf (r + 1) h := hp
  rw [Leads, hpath, pathOf, List.append_assoc]
  rfl

/-- The whole path leads to level `0`. -/
theorem eq_pathOf (hp : Leads d 0 h p) : p = pathOf d h := by
  have hpath : pathOf d h = p ++ pathOf 0 h := hp
  rw [hpath, pathOf, List.append_nil]

/-- Only the bits from `r` on lead to level `r`. -/
theorem congr (hp : Leads d r h p) (hbits : ∀ i, r ≤ i → k.testBit i = h.testBit i) :
    Leads d r k p := by
  induction p generalizing d with
  | nil =>
      have hd : r = d := by simpa using hp.length_add
      rw [hd]
      exact nil d k
  | cons x p ih =>
      have hlength := hp.length_add
      obtain ⟨n, rfl⟩ : ∃ n, d = n + 1 := ⟨p.length + r, by simp at hlength; omega⟩
      have hpath : pathOf (n + 1) h = x :: (p ++ pathOf r h) := hp
      rw [pathOf, List.cons.injEq] at hpath
      have hn : r ≤ n := by simp at hlength; omega
      have hrest : pathOf n k = p ++ pathOf r k := ih hpath.2
      show pathOf (n + 1) k = x :: (p ++ pathOf r k)
      rw [pathOf, hbits n hn, hpath.1, hrest]

end Leads

/-! ## Setting a bit -/

/-- The bits of a number with bit `b` set. -/
theorem testBit_or_one_shiftLeft (h b i : Nat) :
    (h ||| 1 <<< b).testBit i = (h.testBit i || decide (b = i)) := by
  rw [Nat.testBit_or, Nat.one_shiftLeft, Nat.testBit_two_pow]

/-- Setting a low bit stays below the power. -/
theorem or_one_shiftLeft_lt {d h b : Nat} (hh : h < 2 ^ d) (hb : b < d) :
    h ||| 1 <<< b < 2 ^ d := by
  apply Nat.or_lt_two_pow hh
  rw [Nat.one_shiftLeft]
  exact Nat.pow_lt_pow_right (by omega) hb

/-- The clear bits of `h` below `d`. -/
def zeroBits (h : Nat) : Nat → Nat
  | 0 => 0
  | d + 1 => zeroBits h d + if h.testBit d then 0 else 1

/-- More bits have more clear ones. -/
theorem zeroBits_mono {h d d' : Nat} (hle : d ≤ d') : zeroBits h d ≤ zeroBits h d' := by
  induction hle with
  | refl => exact Nat.le_refl _
  | step _ ih => exact Nat.le_trans ih (Nat.le_add_right _ _)

/-- Clear bits are counted below the level only. -/
theorem zeroBits_congr {h k d : Nat} (hbits : ∀ i < d, h.testBit i = k.testBit i) :
    zeroBits h d = zeroBits k d := by
  induction d with
  | zero => rfl
  | succ d ih =>
      rw [zeroBits, zeroBits, hbits d (Nat.lt_succ_self d),
        ih fun i hi => hbits i (Nat.lt_succ_of_lt hi)]

/-- Setting a clear bit and forgetting the bits above leaves fewer clear ones. -/
theorem zeroBits_or_lt {h b d : Nat} (hb : b < d) (hclear : h.testBit b = false) :
    zeroBits (h ||| 1 <<< b) (b + 1) < zeroBits h d := by
  have hlow : zeroBits (h ||| 1 <<< b) b = zeroBits h b := by
    apply zeroBits_congr
    intro i hi
    rw [testBit_or_one_shiftLeft]
    simp [Nat.ne_of_gt hi]
  have hset : (h ||| 1 <<< b).testBit b = true := by
    rw [testBit_or_one_shiftLeft]
    simp
  have hmono := zeroBits_mono (h := h) (Nat.succ_le_of_lt hb)
  rw [Nat.succ_eq_add_one, zeroBits, hclear] at hmono
  rw [zeroBits, hlow, hset]
  simp only [if_true, Bool.false_eq_true, if_false] at hmono ⊢
  omega

/-! ## The lowest clear bit -/

/-- A number below the greatest one has a lowest clear bit. -/
theorem exists_lowestClear {d h : Nat} (hh : h + 1 < 2 ^ d) :
    ∃ z < d, h.testBit z = false ∧ ∀ i < z, h.testBit i = true := by
  have hclear : ∃ z, h.testBit z = false ∧ z < d := by
    by_contra hnone
    have hbits : h = 2 ^ d - 1 := by
      apply Nat.eq_of_testBit_eq
      intro i
      rw [Nat.testBit_two_pow_sub_one]
      by_cases hi : i < d
      · have hset : h.testBit i = true :=
          Bool.eq_true_of_not_eq_false fun hfalse => hnone ⟨i, hfalse, hi⟩
        rw [hset, decide_eq_true hi]
      · have hle : 2 ^ d ≤ 2 ^ i := Nat.pow_le_pow_right Nat.two_pos (Nat.le_of_not_lt hi)
        rw [Nat.testBit_lt_two_pow (by omega), decide_eq_false hi]
    omega
  have hfound := Nat.find_spec hclear
  refine ⟨Nat.find hclear, hfound.2, hfound.1, fun i hi => ?_⟩
  have hlow := Nat.find_min hclear hi
  exact Bool.eq_true_of_not_eq_false fun hfalse => hlow ⟨hfalse, Nat.lt_trans hi hfound.2⟩

/-- From the lowest clear bit on, the successor has the bits of the number with this bit
set. -/
theorem testBit_succ_of_lowestClear {h z : Nat} (hclear : h.testBit z = false)
    (hlow : ∀ i < z, h.testBit i = true) {i : Nat} (hi : z ≤ i) :
    (h + 1).testBit i = (h ||| 1 <<< z).testBit i := by
  have hmod : h % 2 ^ z = 2 ^ z - 1 := by
    apply Nat.eq_of_testBit_eq
    intro j
    rw [Nat.testBit_mod_two_pow, Nat.testBit_two_pow_sub_one]
    by_cases hj : j < z
    · rw [hlow j hj, Bool.and_true]
    · simp [hj]
  have hpos : 0 < 2 ^ z := Nat.two_pow_pos z
  -- the carry of the successor stops at the lowest clear bit
  have hcarry : (h + 1) / 2 ^ z = h / 2 ^ z + 1 := by
    have hsplit := Nat.div_add_mod h (2 ^ z)
    have hsucc : h + 1 = 2 ^ z * (h / 2 ^ z + 1) := by
      rw [Nat.mul_succ]
      omega
    rw [hsucc, Nat.mul_div_cancel_left _ hpos]
  have heven : (h / 2 ^ z) % 2 = 0 := by
    have hbit : (h / 2 ^ z).testBit 0 = false := by
      rw [Nat.testBit_div_two_pow, Nat.add_comm]
      simpa using hclear
    rw [Nat.testBit_zero] at hbit
    simpa using hbit
  obtain ⟨j, rfl⟩ := Nat.exists_eq_add_of_le hi
  have hshift : ∀ n : Nat, n.testBit (z + j) = (n / 2 ^ z).testBit j := fun n => by
    rw [Nat.testBit_div_two_pow, Nat.add_comm]
  rw [testBit_or_one_shiftLeft, hshift, hcarry]
  cases j with
  | zero =>
      rw [Nat.testBit_zero]
      simp [Nat.add_mod, heven]
  | succ j =>
      have hne : z ≠ z + (j + 1) := by omega
      rw [hshift, Nat.testBit_succ, Nat.testBit_succ]
      simp only [hne, decide_false, Bool.or_false]
      congr 1
      omega

end Lib
end InfinityLabs
