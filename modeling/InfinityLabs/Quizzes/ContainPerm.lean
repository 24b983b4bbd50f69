import InfinityLabs.Lib.CInts
import InfinityLabs.Lib.Sections

/-!
# Permutations in a string

`containPerm` of `quizzes/stringperm.cpp`: two tables count the letters of `s1` and those of a
window of `s2` of the same length.  The window goes on by a letter that comes in and one that goes
out, and the tables are compared at every place.

The lengths are kept in `int`s, so that a string of `2 ^ 31` characters or more has another length
there.
-/

namespace InfinityLabs
namespace Quizzes
namespace ContainPerm

open Lib

/-! ## The code -/

/-- `c - 'a'`. -/
def letterIndex (c : UInt8) : Int := (c.toNat : Int) - 0x61

/-- `++` and `--` of the place of a letter. -/
def bump (cells : List Int) (c : UInt8) (d : Int) : Except Trap (List Int) := do
  let x ← readAt cells (letterIndex c)
  let x ← toInt (x + d)
  writeAt cells (letterIndex c) x

/-- `vector<int>(26, 0)`. -/
def zeros : List Int := List.replicate 26 0

/-- The loop over the characters of `s1`. -/
def countLetters : List UInt8 → List Int → Except Trap (List Int)
  | [], need => pure need
  | c :: s, need => do
      let need ← bump need c 1
      countLetters s need

/-- The loop over the first window, for the rounds that are left. -/
def firstWindow (s2 : List UInt8) : Nat → Int → List Int → Except Trap (List Int)
  | 0, _, window => pure window
  | rounds + 1, i, window => do
      let c ← readAt s2 i
      let window ← bump window c 1
      firstWindow s2 rounds (i + 1) window

/-- The loop over the other windows. -/
def slide (s2 : List UInt8) (need : List Int) (n : Int) :
    Nat → Int → List Int → Except Trap Bool
  | 0, _, _ => pure false
  | rounds + 1, right, window => do
      let c ← readAt s2 right
      let window ← bump window c 1
      let left ← toInt (right - n)
      let c ← readAt s2 left
      let window ← bump window c (-1)
      if window = need then pure true else slide s2 need n rounds (right + 1) window

/-- `containPerm`. -/
def containPerm (s1 s2 : List UInt8) : Except Trap Bool := do
  let n := castInt s1.length
  let m := castInt s2.length
  if s2.length < s1.length then pure false
  else
    let need ← countLetters s1 zeros
    let window ← firstWindow s2 n.toNat 0 zeros
    if need = window then pure true else slide s2 need n (m - n).toNat n window

/-! ## Tables of letters -/

/-- A string of lower-case letters. -/
def IsLower (w : List UInt8) : Prop := ∀ c ∈ w, 0x61 ≤ c.toNat ∧ c.toNat < 0x7b

def letter (k : Nat) : UInt8 := UInt8.ofNat (0x61 + k)

def counts (w : List UInt8) (k : Nat) : Int := (w.count (letter k) : Nat)

/-- The table of the letters of a string. -/
def letters (w : List UInt8) : List Int := table 26 (counts w)

variable {s s1 s2 w w' : List UInt8} {c : UInt8} {i j n r : Nat}

theorem IsLower.cons (h : IsLower (c :: w)) : 0x61 ≤ c.toNat ∧ c.toNat < 0x7b :=
  h c List.mem_cons_self

theorem IsLower.tail (h : IsLower (c :: w)) : IsLower w :=
  fun d hd => h d (List.mem_cons_of_mem c hd)

theorem IsLower.section (h : IsLower s) : IsLower (sectionAt s i n) :=
  fun c hc => h c ((infix_of_sectionAt s i n).subset hc)

theorem exists_letter (h : 0x61 ≤ c.toNat ∧ c.toNat < 0x7b) : ∃ k < 26, c = letter k := by
  refine ⟨c.toNat - 0x61, by omega, UInt8.toNat_inj.mp ?_⟩
  rw [letter, UInt8.toNat_ofNat']
  omega

theorem letter_toNat {k : Nat} (hk : k < 26) : (letter k).toNat = 0x61 + k := by
  rw [letter, UInt8.toNat_ofNat']
  omega

theorem letter_ne {k l : Nat} (hk : k < 26) (hl : l < 26) (h : l ≠ k) : letter l ≠ letter k := by
  intro heq
  have hnat := congrArg UInt8.toNat heq
  rw [letter_toNat hk, letter_toNat hl] at hnat
  omega

theorem letterIndex_letter {k : Nat} (hk : k < 26) : letterIndex (letter k) = k := by
  rw [letterIndex, letter_toNat hk]
  omega

theorem letters_nil : letters [] = zeros := rfl

theorem letters_perm (h : w.Perm w') : letters w = letters w' :=
  table_congr fun k _ => by rw [counts, counts, h.count_eq]

/-- **Equal tables** are those of two orders of the same letters. -/
theorem letters_eq_iff (h : IsLower w) (h' : IsLower w') : letters w = letters w' ↔ w.Perm w' := by
  refine ⟨fun heq => List.perm_iff_count.mpr fun c => ?_, letters_perm⟩
  by_cases hc : 0x61 ≤ c.toNat ∧ c.toNat < 0x7b
  case pos =>
    obtain ⟨k, hk, rfl⟩ := exists_letter hc
    have hread := readAt_table (f := counts w) hk
    have hread' := readAt_table (f := counts w') hk
    rw [letters, letters] at heq
    rw [heq, hread', Except.ok.injEq] at hread
    exact (Int.ofNat_inj.mp hread).symm
  case neg =>
    rw [List.count_eq_zero.mpr fun hmem => hc (h c hmem),
      List.count_eq_zero.mpr fun hmem => hc (h' c hmem)]

theorem letters_ne_zeros (h : IsLower w) (hw : 0 < w.length) : letters w ≠ zeros := by
  intro heq
  have hnil := ((letters_eq_iff h (fun _ hc => absurd hc List.not_mem_nil)).mp heq).length_eq
  rw [List.length_nil] at hnil
  omega

/-! ## A letter more or less -/

theorem bump_table {k : Nat} {f : Nat → Int} (hk : k < 26) {d : Int} :
    bump (table 26 f) (letter k) d =
      if IsInt (f k + d) then .ok (table 26 (Function.update f k (f k + d)))
      else .error .overflow := by
  rw [bump, letterIndex_letter hk, readAt_table hk, trap_ok_bind, toInt]
  split
  next => rw [trap_ok_bind, writeAt_table hk]
  next => rfl

/-- The table has one more of the letter that comes in. -/
theorem bump_in (hc : 0x61 ≤ c.toNat ∧ c.toNat < 0x7b) :
    bump (letters w) c 1 =
      if w.count c + 1 < 2 ^ 31 then .ok (letters (c :: w)) else .error .overflow := by
  obtain ⟨k, hk, rfl⟩ := exists_letter hc
  have hcount : counts w k + 1 = ((w.count (letter k) + 1 : Nat) : Int) := rfl
  have hmore : table 26 (Function.update (counts w) k (counts w k + 1)) =
      letters (letter k :: w) := by
    refine table_congr fun l hl => ?_
    by_cases hlk : l = k
    case pos => rw [hlk, Function.update_self, hcount, counts, List.count_cons_self]
    case neg =>
      rw [Function.update_of_ne hlk, counts, counts,
        List.count_cons_of_ne (Ne.symm (letter_ne hk hl hlk))]
  rw [letters, bump_table hk, hmore, hcount]
  simp only [isInt_natCast]

/-- The table has one less of the letter that goes out. -/
theorem bump_out (hc : 0x61 ≤ c.toNat ∧ c.toNat < 0x7b) (hcount : w.count c < 2 ^ 31) :
    bump (letters (c :: w)) c (-1) = .ok (letters w) := by
  obtain ⟨k, hk, rfl⟩ := exists_letter hc
  have hless : counts (letter k :: w) k + -1 = ((w.count (letter k) : Nat) : Int) := by
    rw [counts, List.count_cons_self]
    omega
  rw [letters, bump_table hk, hless, if_pos (isInt_natCast.mpr hcount)]
  refine congrArg _ (table_congr fun l hl => ?_)
  by_cases hlk : l = k
  case pos => rw [hlk, Function.update_self, counts]
  case neg =>
    rw [Function.update_of_ne hlk, counts, counts,
      List.count_cons_of_ne (Ne.symm (letter_ne hk hl hlk))]

/-! ## The loops -/

theorem countLetters_eq (hs : IsLower s) (hint : ∀ c, (s ++ w).count c < 2 ^ 31) :
    countLetters s (letters w) = .ok (letters (s ++ w)) := by
  induction s generalizing w with
  | nil => rfl
  | cons c s ih =>
      have hperm : (s ++ c :: w).Perm (c :: s ++ w) := List.perm_middle
      have hone : w.count c + 1 < 2 ^ 31 := by
        have hc := hint c
        rw [List.count_append, List.count_cons_self] at hc
        omega
      rw [countLetters, bump_in hs.cons, if_pos hone, trap_ok_bind,
        ih hs.tail (fun d => by rw [hperm.count_eq]; exact hint d), letters_perm hperm]

/-- The table `need`. -/
theorem countLetters_zeros (hs : IsLower s) (hint : ∀ c, s.count c < 2 ^ 31) :
    countLetters s zeros = .ok (letters s) := by
  rw [← letters_nil, countLetters_eq hs (by simpa using hint), List.append_nil]

/-- A letter that is there too often for an `int`. -/
theorem countLetters_over (hs : IsLower s) (hw : ∀ c, w.count c < 2 ^ 31)
    (hover : 2 ^ 31 ≤ (s ++ w).count c) : countLetters s (letters w) = .error .overflow := by
  induction s generalizing w with
  | nil => exact absurd hover (Nat.not_le.mpr (hw c))
  | cons d s ih =>
      rw [countLetters, bump_in hs.cons]
      by_cases hone : w.count d + 1 < 2 ^ 31
      case neg => rw [if_neg hone, trap_error_bind]
      case pos =>
        have hperm : (s ++ d :: w).Perm (d :: s ++ w) := List.perm_middle
        rw [if_pos hone, trap_ok_bind]
        refine ih hs.tail (fun e => ?_) (by rw [hperm.count_eq]; exact hover)
        by_cases hde : d = e
        case pos => rw [← hde, List.count_cons_self]; exact hone
        case neg => rw [List.count_cons_of_ne hde]; exact hw e

/-- The first window is the begin of the string. -/
theorem firstWindow_eq (hs : IsLower s2) (hlength : i + r ≤ s2.length)
    (hint : i + r < 2 ^ 31) :
    firstWindow s2 r i (letters (s2.take i)) = .ok (letters (s2.take (i + r))) := by
  induction r generalizing i with
  | zero => rfl
  | succ r ih =>
      have hi : i < s2.length := by omega
      have hone : (s2.take i).count s2[i] + 1 < 2 ^ 31 := by
        have hle := List.count_le_length (a := s2[i]) (l := s2.take i)
        rw [List.length_take] at hle
        omega
      have hperm : (s2[i] :: s2.take i).Perm (s2.take (i + 1)) := by
        rw [List.take_succ_eq_append_getElem hi]
        exact (List.perm_append_singleton _ _).symm
      have hnext : (i : Int) + 1 = (i + 1 : Nat) := rfl
      rw [firstWindow, readAt_of_lt hi, trap_ok_bind, bump_in (hs _ (List.getElem_mem hi)),
        if_pos hone, trap_ok_bind, letters_perm hperm, hnext, ih (by omega) (by omega),
        Nat.add_right_comm, Nat.add_assoc]

/-- **One round** takes the window from one place to the next. -/
theorem slide_succ {need : List Int} (hs : IsLower s2) (hlength : j + n < s2.length)
    (hint : j + n + 1 < 2 ^ 31) :
    slide s2 need n (r + 1) (j + n : Nat) (letters (sectionAt s2 j n)) =
      if letters (sectionAt s2 (j + 1) n) = need then .ok true
      else slide s2 need n r (j + 1 + n : Nat) (letters (sectionAt s2 (j + 1) n)) := by
  have hj : j < s2.length := by omega
  have hcount : ∀ c k, (sectionAt s2 k n).count c ≤ n := fun c k =>
    Nat.le_trans List.count_le_length (by rw [sectionAt, List.length_take]; omega)
  have hin : (sectionAt s2 j n).count s2[j + n] + 1 < 2 ^ 31 := by
    have hle := hcount s2[j + n] j
    omega
  have hout : (sectionAt s2 (j + 1) n).count s2[j] < 2 ^ 31 := by
    have hle := hcount s2[j] (j + 1)
    omega
  have hperm : (s2[j + n] :: sectionAt s2 j n).Perm (s2[j] :: sectionAt s2 (j + 1) n) := by
    rw [cons_sectionAt_succ hlength]
    exact (List.perm_append_singleton _ _).symm
  have hleft : ((j + n : Nat) : Int) - n = j := by omega
  have hleftInt : toInt ((j : Nat) : Int) = .ok j :=
    toInt_of_isInt (isInt_natCast.mpr (by omega))
  have hnext : ((j + n : Nat) : Int) + 1 = (j + 1 + n : Nat) := by omega
  rw [slide, readAt_of_lt hlength, trap_ok_bind, bump_in (hs _ (List.getElem_mem hlength)),
    if_pos hin, trap_ok_bind, letters_perm hperm, hleft, hleftInt, trap_ok_bind, readAt_of_lt hj,
    trap_ok_bind, bump_out (hs _ (List.getElem_mem hj)) hout, trap_ok_bind, hnext]
  rfl

/-- **The loop** looks at the windows up to the last round. -/
theorem slide_eq (h1 : IsLower s1) (h2 : IsLower s2) (hlength : j + n + r ≤ s2.length)
    (hint : j + n + r < 2 ^ 31) :
    ∃ b, slide s2 (letters s1) n r (j + n : Nat) (letters (sectionAt s2 j n)) = .ok b ∧
      (b = true ↔ ∃ k, j < k ∧ k ≤ j + r ∧ (sectionAt s2 k n).Perm s1) := by
  induction r generalizing j with
  | zero =>
      refine ⟨false, rfl, fun h => (Bool.false_ne_true h).elim, ?_⟩
      rintro ⟨k, hjk, hk, -⟩
      omega
  | succ r ih =>
      have hsame := letters_eq_iff (h2.section (i := j + 1) (n := n)) h1
      rw [slide_succ h2 (by omega) (by omega)]
      by_cases hperm : (sectionAt s2 (j + 1) n).Perm s1
      case pos =>
        rw [if_pos (hsame.mpr hperm)]
        exact ⟨true, rfl, fun _ => ⟨j + 1, by omega, by omega, hperm⟩, fun _ => rfl⟩
      case neg =>
        obtain ⟨b, hrun, hb⟩ := ih (j := j + 1) (by omega) (by omega)
        rw [if_neg fun heq => hperm (hsame.mp heq)]
        refine ⟨b, hrun, hb.trans ⟨?_, ?_⟩⟩
        · rintro ⟨k, hjk, hk, hkperm⟩
          exact ⟨k, by omega, by omega, hkperm⟩
        · rintro ⟨k, hjk, hk, hkperm⟩
          have hne : k ≠ j + 1 := fun heq => hperm (heq ▸ hkperm)
          exact ⟨k, by omega, by omega, hkperm⟩

/-! ## The answer -/

/-- A contiguous part of `s2` has the letters of `s1`. -/
def Contains (s1 s2 : List UInt8) : Prop := ∃ w, w <:+: s2 ∧ w.Perm s1

/-- The counts of `s1` are `int`s, and the second loop does not begin before the string. -/
def FitsInts (s1 s2 : List UInt8) : Prop :=
  (∀ c, s1.count c < 2 ^ 31) ∧ ¬ (castInt s1.length < 0 ∧ castInt s1.length < castInt s2.length)

/-- A permutation of `s1` is at the begin of `s2` or ends within the `int` length of `s2`. -/
def InReach (s1 s2 : List UInt8) : Prop :=
  s1.length < 2 ^ 31 ∧ ∃ j : Nat, (j = 0 ∨ (s1.length : Int) + j ≤ castInt s2.length) ∧
    (sectionAt s2 j s1.length).Perm s1

theorem InReach.contains (h : InReach s1 s2) : Contains s1 s2 := by
  obtain ⟨-, j, -, hperm⟩ := h
  exact ⟨_, infix_of_sectionAt s2 j s1.length, hperm⟩

/-- In a string that is not too long every permutation is in reach. -/
theorem Contains.inReach (h : Contains s1 s2) (hlength : s2.length < 2 ^ 31) : InReach s1 s2 := by
  obtain ⟨w, hw, hperm⟩ := h
  obtain ⟨j, hj, hsection⟩ := exists_sectionAt hw
  rw [hperm.length_eq] at hj hsection
  refine ⟨by omega, j, Or.inr ?_, by rw [← hsection]; exact hperm⟩
  rw [castInt_natCast hlength]
  omega

theorem Contains.length_le (h : Contains s1 s2) : s1.length ≤ s2.length := by
  obtain ⟨w, hw, hperm⟩ := h
  rw [← hperm.length_eq]
  exact hw.length_le

/-- A length that is negative as an `int` is none of an `int`. -/
theorem two_pow_le_of_castInt_neg (h : castInt n < 0) : 2 ^ 31 ≤ n := by
  by_contra hlt
  rw [castInt_natCast (by omega)] at h
  omega

/-- The windows of `n` letters up to the place `m`. -/
theorem windows_eq {m : Int} (h1 : IsLower s1) (h2 : IsLower s2) (hn : n ≤ s2.length)
    (hint : n < 2 ^ 31) (hm : m ≤ s2.length) (hmint : m < 2 ^ 31) :
    ∃ b, (do
        let window ← firstWindow s2 n 0 zeros
        if letters s1 = window then pure true
        else slide s2 (letters s1) n (m - n).toNat n window) = Except.ok b ∧
      (b = true ↔ ∃ j : Nat, (j = 0 ∨ (n : Int) + j ≤ m) ∧ (sectionAt s2 j n).Perm s1) := by
  have hfirst : firstWindow s2 n 0 zeros = .ok (letters (sectionAt s2 0 n)) := by
    have hrun := firstWindow_eq (i := 0) (r := n) h2 (by omega) (by omega)
    rw [List.take_zero, Nat.zero_add] at hrun
    exact hrun
  have hsame := letters_eq_iff h1 (h2.section (i := 0) (n := n))
  rw [hfirst, trap_ok_bind]
  by_cases hperm : (sectionAt s2 0 n).Perm s1
  case pos =>
    rw [if_pos (hsame.mpr hperm.symm)]
    exact ⟨true, rfl, fun _ => ⟨0, Or.inl rfl, hperm⟩, fun _ => rfl⟩
  case neg =>
    rw [if_neg fun heq => hperm (hsame.mp heq).symm]
    obtain ⟨b, hrun, hb⟩ := slide_eq (j := 0) (n := n) (r := (m - n).toNat) h1 h2
      (by omega) (by omega)
    rw [Nat.zero_add] at hrun
    refine ⟨b, hrun, hb.trans ⟨?_, ?_⟩⟩
    · rintro ⟨k, hk, hle, hkperm⟩
      exact ⟨k, by omega, hkperm⟩
    · rintro ⟨k, hk, hkperm⟩
      have hne : k ≠ 0 := fun heq => hperm (heq ▸ hkperm)
      exact ⟨k, by omega, by omega, hkperm⟩

/-- **Where everything is an `int`** the code looks for a permutation that is in reach. -/
theorem containPerm_eq (h1 : IsLower s1) (h2 : IsLower s2) (hle : s1.length ≤ s2.length)
    (hfits : FitsInts s1 s2) : ∃ b, containPerm s1 s2 = .ok b ∧ (b = true ↔ InReach s1 s2) := by
  obtain ⟨hcounts, hbegin⟩ := hfits
  unfold containPerm
  rw [if_neg (Nat.not_lt.mpr hle), countLetters_zeros h1 hcounts, trap_ok_bind]
  by_cases hneg : castInt s1.length < 0
  case pos =>
    -- The tables of `s1` and of no letters differ, and the second loop has no rounds.
    have hlong := two_pow_le_of_castInt_neg hneg
    have hne := letters_ne_zeros h1 (by omega)
    have hfirst : (castInt s1.length).toNat = 0 := by omega
    have hrounds : (castInt s2.length - castInt s1.length).toNat = 0 := by omega
    rw [hfirst, hrounds]
    refine ⟨false, if_neg hne, fun h => (Bool.false_ne_true h).elim, fun h => ?_⟩
    have hshort := h.1
    omega
  case neg =>
    have hn : castInt s1.length = ((castInt s1.length).toNat : Nat) := by omega
    have hnle := castInt_le s1.length
    have hnlt := castInt_lt s1.length
    generalize (castInt s1.length).toNat = n at hn
    rw [hn] at hnle hnlt
    rw [hn]
    obtain ⟨b, hrun, hb⟩ := windows_eq (n := n) h1 h2 (by omega) (by omega)
      (castInt_le s2.length) (castInt_lt s2.length)
    refine ⟨b, hrun, hb.trans ?_⟩
    by_cases hlength : s1.length < 2 ^ 31
    case pos =>
      rw [castInt_natCast hlength, Int.ofNat_inj] at hn
      rw [InReach, hn]
      exact ⟨fun h => ⟨by omega, h⟩, fun h => h.2⟩
    case neg =>
      -- The windows are shorter than `s1`.
      refine ⟨?_, fun h => absurd h.1 hlength⟩
      rintro ⟨j, -, hperm⟩
      have hwindow : s1.length ≤ n := by
        rw [← hperm.length_eq, sectionAt]
        exact List.length_take_le n _
      omega

/-- Outside the `int`s a count runs over, or the second loop reads before the string. -/
theorem containPerm_trap (h1 : IsLower s1) (hle : s1.length ≤ s2.length)
    (hfits : ¬ FitsInts s1 s2) : ∃ t, containPerm s1 s2 = .error t := by
  unfold containPerm
  rw [if_neg (Nat.not_lt.mpr hle)]
  by_cases hcounts : ∀ c, s1.count c < 2 ^ 31
  case neg =>
    obtain ⟨c, hc⟩ := not_forall.mp hcounts
    have hover : 2 ^ 31 ≤ (s1 ++ []).count c := by
      rw [List.append_nil]
      omega
    rw [← letters_nil, countLetters_over h1 (fun c => by simp) hover, trap_error_bind]
    exact ⟨_, rfl⟩
  case pos =>
    obtain ⟨hneg, hless⟩ := not_not.mp fun hno => hfits ⟨hcounts, hno⟩
    have hlong := two_pow_le_of_castInt_neg hneg
    have hne := letters_ne_zeros h1 (by omega)
    have hfirst : (castInt s1.length).toNat = 0 := by omega
    obtain ⟨rounds, hrounds⟩ : ∃ k, (castInt s2.length - castInt s1.length).toNat = k + 1 :=
      ⟨(castInt s2.length - castInt s1.length).toNat - 1, by omega⟩
    have hread : readAt s2 (castInt s1.length) = .error .outOfBounds := if_pos hneg
    have hwindow : firstWindow s2 0 0 zeros = .ok zeros := rfl
    rw [countLetters_zeros h1 hcounts, hfirst, hrounds, trap_ok_bind, hwindow, trap_ok_bind,
      if_neg hne, slide, hread, trap_error_bind]
    exact ⟨_, rfl⟩

theorem fitsInts_of_short (h1 : s1.length < 2 ^ 31) : FitsInts s1 s2 := by
  refine ⟨fun c => Nat.lt_of_le_of_lt List.count_le_length h1, fun h => ?_⟩
  have hlong := two_pow_le_of_castInt_neg h.1
  omega

/-- In a string of fewer than `2 ^ 31` characters the answer is right. -/
theorem containPerm_of_short (h1 : IsLower s1) (h2 : IsLower s2) (hlength : s2.length < 2 ^ 31) :
    ∃ b, containPerm s1 s2 = .ok b ∧ (b = true ↔ Contains s1 s2) := by
  by_cases hlonger : s2.length < s1.length
  case pos =>
    exact ⟨false, if_pos hlonger, fun h => (Bool.false_ne_true h).elim,
      fun h => absurd h.length_le (Nat.not_le.mpr hlonger)⟩
  case neg =>
    obtain ⟨b, hrun, hb⟩ := containPerm_eq h1 h2 (by omega) (fitsInts_of_short (by omega))
    exact ⟨b, hrun, hb.trans ⟨InReach.contains, fun h => h.inReach hlength⟩⟩

/-- **`containPerm`** decides whether a permutation of `s1` stands in `s2` exactly if `s1` is longer
or everything is an `int` and no permutation stands out of reach only. -/
theorem containPerm_iff (h1 : IsLower s1) (h2 : IsLower s2) :
    (∃ b, containPerm s1 s2 = .ok b ∧ (b = true ↔ Contains s1 s2)) ↔
      s2.length < s1.length ∨
        (FitsInts s1 s2 ∧ (InReach s1 s2 ∨ ¬ Contains s1 s2)) := by
  by_cases hlonger : s2.length < s1.length
  case pos =>
    have hno : ¬ Contains s1 s2 := fun h => Nat.not_le.mpr hlonger h.length_le
    have hrun : containPerm s1 s2 = .ok false := if_pos hlonger
    exact ⟨fun _ => Or.inl hlonger,
      fun _ => ⟨false, hrun, fun h => (Bool.false_ne_true h).elim, fun h => absurd h hno⟩⟩
  case neg =>
    by_cases hfits : FitsInts s1 s2
    case neg =>
      obtain ⟨t, hrun⟩ := containPerm_trap h1 (Nat.not_lt.mp hlonger) hfits
      refine ⟨?_, fun h => absurd (h.resolve_left hlonger).1 hfits⟩
      rintro ⟨b, hok, -⟩
      rw [hrun] at hok
      cases hok
    case pos =>
      obtain ⟨b, hrun, hb⟩ := containPerm_eq h1 h2 (Nat.not_lt.mp hlonger) hfits
      constructor
      · rintro ⟨b', hok, hb'⟩
        obtain rfl : b = b' := by
          rw [hrun] at hok
          exact Except.ok.inj hok
        refine Or.inr ⟨hfits, (em (Contains s1 s2)).imp (fun h => ?_) id⟩
        exact hb.mp (hb'.mpr h)
      · intro h
        obtain hreach | hno := (h.resolve_left hlonger).2
        · exact ⟨b, hrun, fun _ => hreach.contains, fun _ => hb.mpr hreach⟩
        · exact ⟨b, hrun, fun h => (hb.mp h).contains, fun h => absurd h hno⟩

/-- "ba" stands in the middle. -/
theorem containPerm_iff_ab :
    ∃ b, containPerm [0x61, 0x62] [0x65, 0x69, 0x64, 0x62, 0x61, 0x6f, 0x6f, 0x6f] = .ok b ∧
      (b = true ↔ Contains [0x61, 0x62] [0x65, 0x69, 0x64, 0x62, 0x61, 0x6f, 0x6f, 0x6f]) := by
  refine (containPerm_iff (by simp [IsLower]) (by simp [IsLower])).mpr (Or.inr ⟨?_, Or.inl ?_⟩)
  · exact fitsInts_of_short (by decide)
  · exact ⟨by decide, 3, by decide, by decide⟩

/-- A letter behind so many others that the length is not positive as an `int`. -/
theorem containPerm_last {k : Nat} {d : UInt8} (hcd : d ≠ c) (hc : IsLower [c]) (hd : IsLower [d])
    (hk : 0 < k) (hlength : castInt (k + 1 : Nat) ≤ 0) :
    containPerm [c] (List.replicate k d ++ [c]) = .ok false := by
  have hlower : IsLower (List.replicate k d ++ [c]) := by
    intro e he
    obtain he | he := List.mem_append.mp he
    · rw [List.eq_of_mem_replicate he]
      exact hd d List.mem_cons_self
    · exact hc e he
  have hall : (List.replicate k d ++ [c]).length = k + 1 := by
    rw [List.length_append, List.length_replicate, List.length_singleton]
  have hfits : FitsInts [c] (List.replicate k d ++ [c]) :=
    fitsInts_of_short (by decide : (1 : Nat) < 2 ^ 31)
  have hle : [c].length ≤ (List.replicate k d ++ [c]).length := by
    rw [hall, List.length_singleton]
    omega
  obtain ⟨b, hrun, hb⟩ := containPerm_eq hc hlower hle hfits
  rw [hrun, Except.ok.injEq, ← Bool.not_eq_true, hb]
  rintro ⟨-, j, hj, hperm⟩
  rw [hall, List.length_singleton] at hj
  obtain rfl : j = 0 := by omega
  obtain ⟨k, rfl⟩ := Nat.exists_eq_succ_of_ne_zero (Nat.ne_of_gt hk)
  exact hcd (List.singleton_perm_singleton.mp hperm)

/-- "b" behind `2 ^ 31` times "a". -/
theorem containPerm_two_pow :
    ¬ ∃ b, containPerm [0x62] (List.replicate (2 ^ 31) 0x61 ++ [0x62]) = .ok b ∧
      (b = true ↔ Contains [0x62] (List.replicate (2 ^ 31) 0x61 ++ [0x62])) := by
  rintro ⟨b, hrun, hb⟩
  rw [containPerm_last (by decide) (by simp [IsLower]) (by simp [IsLower]) (Nat.two_pow_pos 31)
    (by decide), Except.ok.injEq] at hrun
  have hcontains : Contains [0x62] (List.replicate (2 ^ 31) 0x61 ++ [0x62]) :=
    ⟨[0x62], List.suffix_append _ _ |>.isInfix, List.Perm.refl _⟩
  exact Bool.false_ne_true (hrun.trans (hb.mpr hcontains))

end ContainPerm
end Quizzes
end InfinityLabs
