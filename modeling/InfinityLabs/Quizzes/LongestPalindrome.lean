import InfinityLabs.Lib.CInts
import InfinityLabs.Lib.Palindromes

/-!
# The longest palindrome

`quizzes/longestpalindrome.cpp`: around every character, and around every place between two, a
section is made longer as long as both ends agree.

Places are `int`s.  They run over in a string of 2^31 characters or more; and where a palindrome of
2^31 - 1 characters is the whole string, the distance of the ends does.
-/

namespace InfinityLabs
namespace Quizzes
namespace LongestPalindrome

open Lib

/-! ## The code -/

/-- The loop of `expand`. -/
def expandLoop (s : List UInt8) : Nat → Int → Int → Except Trap (Int × Int)
  | 0, _, _ => .error .outOfFuel
  | fuel + 1, left, right => do
      if left ≥ 0 ∧ toSize right < s.length then
        let c ← readAt s left
        let d ← readAt s (toSize right)
        if c = d then
          let left ← toInt (left - 1)
          let right ← toInt (right + 1)
          expandLoop s fuel left right
        else pure (left, right)
      else pure (left, right)

/-- `s.substr(pos, count)`. -/
def substr (s : List UInt8) (pos count : Nat) : Except Trap (List UInt8) :=
  if pos > s.length then .error .outOfBounds else .ok ((s.drop pos).take count)

/-- `expand`. -/
def expand (s : List UInt8) (fuel : Nat) (left right : Int) : Except Trap (List UInt8) := do
  let (left, right) ← expandLoop s fuel left right
  let pos ← toInt (left + 1)
  let distance ← toInt (right - left)
  let count ← toInt (distance - 1)
  substr s (toSize pos) (toSize count)

/-- The longer string; the first of two that are equally long. -/
def longer (result found : List UInt8) : List UInt8 :=
  if found.length > result.length then found else result

/-- The body of the loop of `longestPalindrome`. -/
def searchStep (s : List UInt8) (fuel : Nat) (i : Int) (result : List UInt8) :
    Except Trap (List UInt8) := do
  let odd ← expand s fuel i i
  let next ← toInt (i + 1)
  let even ← expand s fuel i next
  pure (longer (longer result odd) even)

/-- The loop of `longestPalindrome`. -/
def searchLoop (s : List UInt8) (fuel : Nat) : Nat → Int → List UInt8 → Except Trap (List UInt8)
  | 0, _, _ => .error .outOfFuel
  | n + 1, i, result => do
      if toSize i < s.length then
        let result ← searchStep s fuel i result
        let i ← toInt (i + 1)
        searchLoop s fuel n i result
      else pure result

/-- `longestPalindrome`. -/
def longestPalindrome (fuel : Nat) (s : List UInt8) : Except Trap (List UInt8) :=
  searchLoop s fuel fuel 0 []

/-! ## Making a section longer -/

variable {s result w : List UInt8} {a b fuel i : Nat}

/-- One round of the loop between two places. -/
theorem expandLoop_succ (hlength : s.length < 2 ^ 31) (ha : a ≤ b) (hb : b < s.length) :
    expandLoop s (fuel + 1) a b =
      if s[a]? = s[b]? then expandLoop s fuel ((a : Int) - 1) (b + 1 : Nat) else .ok (a, b) := by
  have hright : toSize b = b := toSize_natCast (by omega)
  have hprev : toInt ((a : Int) - 1) = .ok ((a : Int) - 1) :=
    toInt_of_isInt (by unfold IsInt; omega)
  have hnext : toInt ((b : Int) + 1) = .ok ((b + 1 : Nat) : Int) :=
    toInt_of_isInt (x := ((b + 1 : Nat) : Int)) (by unfold IsInt; omega)
  rw [expandLoop, hright, if_pos ⟨Int.natCast_nonneg a, hb⟩, readAt_of_lt (by omega),
    readAt_of_lt hb]
  simp only [trap_ok_bind, hprev, hnext]
  rw [List.getElem?_eq_getElem (by omega), List.getElem?_eq_getElem hb]
  simp only [Option.some.injEq]
  rfl

/-- **The loop** ends with a section that cannot be made longer. -/
theorem expandLoop_eq (hlength : s.length < 2 ^ 31) (hab : a ≤ b) (h : Mirrored s a b)
    (hfuel : a < fuel) :
    ∃ a' b' : Nat, expandLoop s fuel ((a : Int) - 1) b = .ok ((a' : Int) - 1, (b' : Int)) ∧
      a' ≤ a ∧ a' + b' = a + b ∧ Mirrored s a' b' ∧
      (a' = 0 ∨ b' = s.length ∨ s[a' - 1]? ≠ s[b']?) := by
  induction a generalizing b fuel with
  | zero =>
      obtain ⟨fuel, rfl⟩ := Nat.exists_eq_add_of_lt hfuel
      refine ⟨0, b, ?_, Nat.le_refl 0, rfl, h, Or.inl rfl⟩
      rw [expandLoop, if_neg (fun hleft => by omega)]
      rfl
  | succ a ih =>
      obtain ⟨fuel, rfl⟩ : ∃ k, fuel = k + 1 := Nat.exists_eq_succ_of_ne_zero (by omega)
      have hinside := h.inside
      have hleft : ((a + 1 : Nat) : Int) - 1 = a := by omega
      have hstop : (b = s.length ∨ s[a]? ≠ s[b]?) → ∃ a' b' : Nat,
          (.ok ((a : Int), (b : Int)) : Except Trap (Int × Int)) =
              .ok ((a' : Int) - 1, (b' : Int)) ∧
            a' ≤ a + 1 ∧ a' + b' = a + 1 + b ∧ Mirrored s a' b' ∧
            (a' = 0 ∨ b' = s.length ∨ s[a' - 1]? ≠ s[b']?) := fun hend =>
        ⟨a + 1, b, by rw [hleft], Nat.le_refl _, rfl, h, Or.inr hend⟩
      rw [hleft]
      by_cases hb : b < s.length
      case neg =>
        have hright : toSize b = b := toSize_natCast (by omega)
        rw [expandLoop, hright, if_neg (fun hgo => hb hgo.2)]
        exact hstop (Or.inl (by omega))
      case pos =>
        rw [expandLoop_succ hlength (by omega) hb]
        by_cases hsame : s[a]? = s[b]?
        case neg =>
          rw [if_neg hsame]
          exact hstop (Or.inr hsame)
        case pos =>
          obtain ⟨a', b', hloop, hle, hsum, hmirror, hend⟩ :=
            @ih (b + 1) fuel (by omega) (h.grow hb hsame) (by omega)
          rw [if_pos hsame]
          exact ⟨a', b', hloop, by omega, by omega, hmirror, hend⟩

/-- The longest palindrome around a centre, where `c` is the sum of the ends. -/
def IsLongestAround (s : List UInt8) (c : Nat) (w : List UInt8) : Prop :=
  ∃ a b, a ≤ b ∧ a + b = c ∧ Mirrored s a b ∧ w = sectionAt s a (b - a) ∧
    ∀ a' b', Mirrored s a' b' → a' + b' = c → a ≤ a'

/-- The whole string is a palindrome of 2^31 - 1 characters, and this is its centre. -/
def IsWhole (s : List UInt8) (c : Nat) : Prop :=
  s.length = 2 ^ 31 - 1 ∧ Mirrored s 0 s.length ∧ c = s.length

/-- What `expand` makes of the ends the loop finds: the section between them, where their distance
is an `int`. -/
theorem expand_eq {left right : Int} {n : Nat} (hlength : s.length < 2 ^ 31) (hab : a ≤ b)
    (h : Mirrored s a b) (hfuel : a < fuel)
    (hloop : expandLoop s n left right = expandLoop s fuel ((a : Int) - 1) b) :
    (IsWhole s (a + b) → expand s n left right = .error .overflow) ∧
      (¬ IsWhole s (a + b) →
        ∃ w, expand s n left right = .ok w ∧ IsLongestAround s (a + b) w) := by
  obtain ⟨a', b', hend, hle, hsum, hmirror, hstop⟩ := expandLoop_eq hlength hab h hfuel
  have hinside := hmirror.inside
  have hpos : toInt ((a' : Int) - 1 + 1) = .ok (a' : Int) := by
    rw [show (a' : Int) - 1 + 1 = a' by omega]
    exact toInt_of_isInt (by unfold IsInt; omega)
  have hlongest : ∀ a'' b'', Mirrored s a'' b'' → a'' + b'' = a + b → a' ≤ a'' :=
    fun a'' b'' hother hcentre => hother.le_of_end hstop (by omega) (by omega)
  constructor
  · rintro ⟨hmax, hall, hcentre⟩
    obtain rfl : a' = 0 := by
      have hfirst := hlongest 0 s.length hall (by omega)
      omega
    have hover : toInt ((b' : Int) - (((0 : Nat) : Int) - 1)) = .error .overflow :=
      toInt_of_not_isInt (by unfold IsInt; omega)
    simp only [expand, hloop, hend, trap_ok_bind, hpos, hover, trap_error_bind]
  · intro hpart
    have hroom : ¬ (a' = 0 ∧ b' = 2 ^ 31 - 1) := by
      rintro ⟨rfl, hb'⟩
      obtain rfl : b' = s.length := by omega
      exact hpart ⟨hb', hmirror, by omega⟩
    have hdistance : toInt ((b' : Int) - ((a' : Int) - 1)) = .ok ((b' - a' + 1 : Nat) : Int) := by
      rw [show (b' : Int) - ((a' : Int) - 1) = ((b' - a' + 1 : Nat) : Int) by omega]
      exact toInt_of_isInt (by unfold IsInt; omega)
    have hcount : toInt (((b' - a' + 1 : Nat) : Int) - 1) = .ok ((b' - a' : Nat) : Int) := by
      rw [show ((b' - a' + 1 : Nat) : Int) - 1 = ((b' - a' : Nat) : Int) by omega]
      exact toInt_of_isInt (by unfold IsInt; omega)
    refine ⟨sectionAt s a' (b' - a'), ?_, a', b', by omega, hsum, hmirror, rfl, hlongest⟩
    simp only [expand, hloop, hend, trap_ok_bind, hpos, hdistance, hcount]
    rw [toSize_natCast (by omega), toSize_natCast (by omega), substr, if_neg (by omega), sectionAt]

/-! ## The two centres of a round -/

theorem mirrored_empty (h : i ≤ s.length) : Mirrored s i i where
  inside := h
  same _ _ hi hj hsum := by omega

theorem mirrored_single (h : i < s.length) : Mirrored s i (i + 1) where
  inside := h
  same k l hk hl hsum := by
    obtain rfl : k = l := by omega
    rfl

/-- Around a character. -/
theorem expand_odd (hlength : s.length < 2 ^ 31) (hi : i < s.length) (hfuel : i < fuel) :
    (IsWhole s (2 * i + 1) → expand s (fuel + 1) i i = .error .overflow) ∧
      (¬ IsWhole s (2 * i + 1) →
        ∃ w, expand s (fuel + 1) i i = .ok w ∧ IsLongestAround s (2 * i + 1) w) := by
  have hloop := @expandLoop_succ s i i fuel hlength (Nat.le_refl i) hi
  rw [if_pos rfl] at hloop
  have hexpand := expand_eq hlength (Nat.le_succ i) (mirrored_single hi) hfuel hloop
  rwa [show i + (i + 1) = 2 * i + 1 by omega] at hexpand

/-- Behind a character. -/
theorem expand_even (hlength : s.length < 2 ^ 31) (hi : i < s.length) (hfuel : i < fuel) :
    (IsWhole s (2 * i + 2) → expand s (fuel + 1) i (i + 1 : Nat) = .error .overflow) ∧
      (¬ IsWhole s (2 * i + 2) →
        ∃ w, expand s (fuel + 1) i (i + 1 : Nat) = .ok w ∧
          IsLongestAround s (2 * i + 2) w) := by
  have hleft : ((i + 1 : Nat) : Int) - 1 = i := by omega
  have hexpand := @expand_eq s (i + 1) (i + 1) (fuel + 1) i (i + 1 : Nat) (fuel + 1) hlength
    (Nat.le_refl _) (mirrored_empty hi) (by omega) (by rw [hleft])
  rwa [show i + 1 + (i + 1) = 2 * i + 2 by omega] at hexpand

/-! ## The search -/

/-- The longest palindrome among those whose ends have a sum of at most `c`. -/
structure LongestUpTo (s : List UInt8) (c : Nat) (w : List UInt8) : Prop where
  part : w <:+: s
  palindrome : w.Palindrome
  longest : ∀ a b, a ≤ b → Mirrored s a b → a + b ≤ c → b - a ≤ w.length

theorem longestUpTo_zero : LongestUpTo s 0 [] where
  part := List.nil_infix
  palindrome := .nil
  longest a b _ _ hsum := by omega

/-- The longest around the next centre is compared with the longest so far. -/
theorem LongestUpTo.longer {c : Nat} (h : LongestUpTo s c result)
    (hw : IsLongestAround s (c + 1) w) :
    LongestUpTo s (c + 1) (LongestPalindrome.longer result w) := by
  obtain ⟨a, b, hab, hsum, hmirror, rfl, hlongest⟩ := hw
  have hinside := hmirror.inside
  have hlength : (sectionAt s a (b - a)).length = b - a := length_sectionAt (by omega)
  have hpalindrome : (sectionAt s a (b - a)).Palindrome := by
    refine (mirrored_iff_palindrome (by omega)).mp ?_
    rwa [Nat.add_sub_cancel' hab]
  have haround : ∀ a' b', a' ≤ b' → Mirrored s a' b' → a' + b' = c + 1 → b' - a' ≤ b - a := by
    intro a' b' hle hother hcentre
    have hfirst := hlongest a' b' hother hcentre
    omega
  unfold LongestPalindrome.longer
  rw [hlength]
  split
  next hgt =>
    refine ⟨infix_of_sectionAt s a (b - a), hpalindrome, fun a' b' hle hother hle' => ?_⟩
    rw [hlength]
    rcases Nat.eq_or_lt_of_le hle' with heq | hlt
    · exact haround a' b' hle hother heq
    · exact Nat.le_trans (h.longest a' b' hle hother (by omega)) (Nat.le_of_lt hgt)
  next hle =>
    refine ⟨h.part, h.palindrome, fun a' b' hab' hother hle' => ?_⟩
    rcases Nat.eq_or_lt_of_le hle' with heq | hlt
    · exact Nat.le_trans (haround a' b' hab' hother heq) (Nat.le_of_not_lt hle)
    · exact h.longest a' b' hab' hother (by omega)

/-- One round of the search finds the longest palindrome up to the next centre. -/
theorem searchStep_eq (hlength : s.length < 2 ^ 31) (hi : i < s.length) (hfuel : i < fuel)
    (hodd : ¬ IsWhole s (2 * i + 1)) (h : LongestUpTo s (2 * i) result) :
    ∃ w, searchStep s (fuel + 1) i result = .ok w ∧ LongestUpTo s (2 * (i + 1)) w := by
  have heven : ¬ IsWhole s (2 * i + 2) := by
    rintro ⟨hmax, -, hcentre⟩
    omega
  obtain ⟨odd, hexpandOdd, hoddLongest⟩ := (expand_odd hlength hi hfuel).2 hodd
  obtain ⟨even, hexpandEven, hevenLongest⟩ := (expand_even hlength hi hfuel).2 heven
  have hnext : toInt ((i : Int) + 1) = .ok ((i + 1 : Nat) : Int) :=
    toInt_of_isInt (x := ((i + 1 : Nat) : Int)) (by unfold IsInt; omega)
  refine ⟨longer (longer result odd) even, ?_, (h.longer hoddLongest).longer hevenLongest⟩
  simp only [searchStep, hexpandOdd, hnext, hexpandEven, trap_ok_bind]
  rfl

/-- **The search** goes through all centres. -/
theorem searchLoop_eq (hlength : s.length < 2 ^ 31)
    (hwhole : ¬ (s.length = 2 ^ 31 - 1 ∧ s.Palindrome)) {n : Nat} (hi : i ≤ s.length)
    (hn : s.length < n + i) (hfuel : s.length ≤ fuel) (h : LongestUpTo s (2 * i) result) :
    ∃ w, searchLoop s (fuel + 1) n i result = .ok w ∧ LongestUpTo s (2 * s.length) w := by
  have hnever : ∀ c, ¬ IsWhole s c := by
    rintro c ⟨hmax, hall, -⟩
    exact hwhole ⟨hmax, mirrored_iff_palindrome_whole.mp hall⟩
  induction n generalizing i result with
  | zero => omega
  | succ n ih =>
      have hplace : toSize i = i := toSize_natCast (by omega)
      rw [searchLoop, hplace]
      by_cases hgo : i < s.length
      case neg =>
        obtain rfl : i = s.length := by omega
        rw [if_neg hgo]
        exact ⟨result, rfl, h⟩
      case pos =>
        obtain ⟨w, hstep, hw⟩ := searchStep_eq hlength hgo (show i < fuel by omega) (hnever _) h
        have hnext : toInt ((i : Int) + 1) = .ok ((i + 1 : Nat) : Int) :=
          toInt_of_isInt (x := ((i + 1 : Nat) : Int)) (by unfold IsInt; omega)
        rw [if_pos hgo, hstep, trap_ok_bind, hnext, trap_ok_bind]
        exact ih hgo (by omega) hw

/-! ## Where places run over -/

/-- The search has no result if a round has none that it comes to. -/
theorem searchLoop_ne_ok {last : Nat} (hlast : last < s.length) (hplace : last < 2 ^ 31)
    (hstep : ∀ result w, searchStep s fuel last result ≠ .ok w) (n : Nat) (hi : i ≤ last) :
    searchLoop s fuel n i result ≠ .ok w := by
  induction n generalizing i result with
  | zero => exact fun h => by cases h
  | succ n ih =>
      intro h
      have hsize : toSize i = i := toSize_natCast (by omega)
      rw [searchLoop, hsize, if_pos (by omega)] at h
      obtain ⟨next, hround, hrest⟩ := exists_ok_of_trap_bind h
      obtain ⟨j, hj, hloop⟩ := exists_ok_of_trap_bind hrest
      obtain rfl : j = ((i + 1 : Nat) : Int) := (isInt_of_toInt hj).2
      by_cases hend : i = last
      case pos =>
        subst hend
        exact hstep result next hround
      case neg => exact ih (by omega) hloop

/-- In a long string the place behind the last `int` is asked for. -/
theorem searchStep_long (result : List UInt8) :
    searchStep s fuel (2 ^ 31 - 1 : Nat) result ≠ .ok w := by
  intro h
  obtain ⟨odd, -, hrest⟩ := exists_ok_of_trap_bind h
  obtain ⟨next, hnext, -⟩ := exists_ok_of_trap_bind hrest
  have hint := (isInt_of_toInt hnext).1
  unfold IsInt at hint
  omega

theorem longestPalindrome_long (hlength : 2 ^ 31 ≤ s.length) :
    longestPalindrome fuel s ≠ .ok w :=
  @searchLoop_ne_ok s [] w fuel 0 (2 ^ 31 - 1) (by omega) (by omega)
    (fun result _ => searchStep_long result) fuel (Nat.zero_le _)

/-- A palindrome of 2^31 - 1 characters has ends too far from each other. -/
theorem longestPalindrome_whole (hlength : s.length = 2 ^ 31 - 1) (h : s.Palindrome) :
    longestPalindrome (s.length + fuel + 1) s ≠ .ok w := by
  have hmirror : Mirrored s 0 s.length := mirrored_iff_palindrome_whole.mpr h
  have hexpand := (@expand_odd s (s.length + fuel) (2 ^ 30 - 1) (by omega) (by omega) (by omega)).1
    ⟨hlength, hmirror, by omega⟩
  refine @searchLoop_ne_ok s [] w _ 0 (2 ^ 30 - 1) (by omega) (by omega)
    (fun result w hstep => ?_) _ (Nat.zero_le _)
  obtain ⟨odd, hodd, -⟩ := exists_ok_of_trap_bind hstep
  rw [hexpand] at hodd
  cases hodd

/-- **`longestPalindrome`** returns a palindrome of the string than which none is longer, exactly if
all places and distances are `int`s. -/
theorem longestPalindrome_iff (s : List UInt8) :
    (∃ bound, ∀ fuel ≥ bound, ∃ w, longestPalindrome fuel s = .ok w ∧ IsLongestPalindrome s w) ↔
      s.length < 2 ^ 31 ∧ ¬ (s.length = 2 ^ 31 - 1 ∧ s.Palindrome) := by
  constructor
  · rintro ⟨bound, hall⟩
    obtain ⟨w, hrun, -⟩ := hall (s.length + bound + 1) (by omega)
    refine ⟨?_, fun hwhole => longestPalindrome_whole hwhole.1 hwhole.2 hrun⟩
    by_contra hlong
    exact longestPalindrome_long (by omega) hrun
  · rintro ⟨hlength, hwhole⟩
    refine ⟨s.length + 1, fun fuel hfuel => ?_⟩
    obtain ⟨fuel, rfl⟩ : ∃ k, fuel = k + 1 := Nat.exists_eq_succ_of_ne_zero (by omega)
    obtain ⟨w, hrun, hw⟩ := @searchLoop_eq s [] fuel 0 hlength hwhole (fuel + 1) (Nat.zero_le _)
      (by omega) (by omega) longestUpTo_zero
    refine ⟨w, hrun, hw.part, hw.palindrome, fun v hv hpalindrome => ?_⟩
    obtain ⟨a, ha, hsection⟩ := exists_sectionAt hv
    rw [hsection] at hpalindrome
    have hmirror := (mirrored_iff_palindrome ha).mpr hpalindrome
    have hle := hw.longest a (a + v.length) (by omega) hmirror (by omega)
    omega

/-- As many equal characters as places that are no `int` any more. -/
theorem longestPalindrome_two_pow : ¬ ∃ bound, ∀ fuel ≥ bound,
    ∃ w, longestPalindrome fuel (List.replicate (2 ^ 31) 0x61) = .ok w ∧
      IsLongestPalindrome (List.replicate (2 ^ 31) 0x61) w := by
  rintro ⟨bound, hall⟩
  obtain ⟨w, hrun, -⟩ := hall bound (Nat.le_refl bound)
  exact longestPalindrome_long (Nat.le_of_eq (List.length_replicate).symm) hrun

end LongestPalindrome
end Quizzes
end InfinityLabs
