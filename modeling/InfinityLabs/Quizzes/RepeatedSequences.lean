import InfinityLabs.Lib.CInts
import InfinityLabs.Lib.Sections

/-!
# Repeated sequences

`findRepeatedSequences` of `quizzes/dna.cpp`: a window of ten characters goes over the string, a map
counts every sequence, and one that is seen a second time goes to a list.

The loop stops before `i + dna_len` comes to the length of the string, so that the last window is
not looked at: a sequence that occurs once before and then at the very end is missed.
-/

namespace InfinityLabs
namespace Quizzes
namespace RepeatedSequences

open Lib

/-! ## The code -/

def dnaLen : Nat := 10

/-- The list of results, and the map, which has 0 where nothing has been counted. -/
structure Scan where
  list : List (List UInt8)
  frequency : List UInt8 → Int

/-- The body of the loop. -/
def scanStep (s : List UInt8) (i : Nat) (scan : Scan) : Except Trap Scan := do
  let sub := (s.drop i).take dnaLen
  let count ← toInt (scan.frequency sub + 1)
  let frequency := Function.update scan.frequency sub count
  if frequency sub = 2 then pure ⟨scan.list ++ [sub], frequency⟩
  else pure ⟨scan.list, frequency⟩

/-- The loop over the places. -/
def scanLoop (s : List UInt8) : Nat → Nat → Scan → Except Trap Scan
  | 0, _, _ => .error .outOfFuel
  | fuel + 1, i, scan => do
      if i + dnaLen < s.length then
        let scan ← scanStep s i scan
        scanLoop s fuel (i + 1) scan
      else pure scan

/-- `findRepeatedSequences`. -/
def findRepeatedSequences (fuel : Nat) (s : List UInt8) : Except Trap (List (List UInt8)) := do
  let scan ← scanLoop s fuel 0 ⟨[], fun _ => 0⟩
  pure scan.list

/-! ## Sequences that occur again -/

/-- A sequence stands at two places of the string. -/
def OccursTwice (s w : List UInt8) : Prop :=
  ∃ i j, i < j ∧ j + dnaLen ≤ s.length ∧ sectionAt s i dnaLen = w ∧ sectionAt s j dnaLen = w

/-- All sequences that stand at two places, each of them once. -/
structure IsRepeated (s : List UInt8) (list : List (List UInt8)) : Prop where
  nodup : list.Nodup
  complete : ∀ w, w ∈ list ↔ OccursTwice s w

/-- How often a sequence stands at the places the loop looks at. -/
def scanned (s w : List UInt8) : Nat := (sections s dnaLen (s.length - dnaLen)).count w

variable {s w : List UInt8} {i fuel : Nat} {scan : Scan}

/-- Two places are among all of them, the last one included. -/
theorem occursTwice_iff (hlength : dnaLen ≤ s.length) :
    OccursTwice s w ↔ 2 ≤ (sections s dnaLen (s.length - dnaLen + 1)).count w := by
  rw [two_le_count_sections]
  unfold OccursTwice
  constructor
  · rintro ⟨i, j, hij, hj, hi, hjw⟩
    exact ⟨i, j, hij, by omega, hi, hjw⟩
  · rintro ⟨i, j, hij, hj, hi, hjw⟩
    exact ⟨i, j, hij, by omega, hi, hjw⟩

/-! ## The loop -/

/-- What has been counted and found at the first places. -/
structure Scanned (s : List UInt8) (i : Nat) (scan : Scan) : Prop where
  frequency : ∀ w, scan.frequency w = (sections s dnaLen i).count w
  nodup : scan.list.Nodup
  found : ∀ w, w ∈ scan.list ↔ 2 ≤ (sections s dnaLen i).count w

theorem scanned_zero : Scanned s 0 ⟨[], fun _ => 0⟩ where
  frequency _ := rfl
  nodup := List.nodup_nil
  found w := by simp [sections]

theorem count_sections_succ :
    (sections s dnaLen (i + 1)).count w =
      (sections s dnaLen i).count w + if sectionAt s i dnaLen = w then 1 else 0 := by
  rw [sections_succ, List.count_append, List.count_singleton]
  simp only [beq_iff_eq]

/-- The map with one more of the sequence at the next place. -/
theorem update_frequency (h : Scanned s i scan) (w : List UInt8) :
    Function.update scan.frequency (sectionAt s i dnaLen)
      ((sections s dnaLen (i + 1)).count (sectionAt s i dnaLen) : Nat) w =
        (sections s dnaLen (i + 1)).count w := by
  by_cases hw : w = sectionAt s i dnaLen
  case pos => rw [hw, Function.update_self]
  case neg =>
    rw [Function.update_of_ne hw, h.frequency, count_sections_succ, if_neg (Ne.symm hw),
      Nat.add_zero]

/-- One more place, where its count is an `int`. -/
theorem scanStep_eq (h : Scanned s i scan)
    (hint : (sections s dnaLen (i + 1)).count (sectionAt s i dnaLen) < 2 ^ 31) :
    ∃ next, scanStep s i scan = .ok next ∧ Scanned s (i + 1) next := by
  have hmap := update_frequency h
  obtain ⟨hfrequency, hnodup, hfound⟩ := h
  have hself : (sections s dnaLen (i + 1)).count (sectionAt s i dnaLen) =
      (sections s dnaLen i).count (sectionAt s i dnaLen) + 1 := by
    rw [count_sections_succ, if_pos rfl]
  have hother : ∀ w, w ≠ sectionAt s i dnaLen →
      (sections s dnaLen (i + 1)).count w = (sections s dnaLen i).count w := fun w hw => by
    rw [count_sections_succ, if_neg (Ne.symm hw), Nat.add_zero]
  have hcount : toInt (scan.frequency (sectionAt s i dnaLen) + 1) =
      .ok ((sections s dnaLen (i + 1)).count (sectionAt s i dnaLen) : Nat) := by
    rw [hself] at hint
    rw [hfrequency, hself]
    exact toInt_of_isInt (isInt_natCast.mpr hint)
  have hsub : (s.drop i).take dnaLen = sectionAt s i dnaLen := rfl
  simp only [scanStep, hsub, hcount, trap_ok_bind, Function.update_self]
  by_cases htwice : (sections s dnaLen (i + 1)).count (sectionAt s i dnaLen) = 2
  case pos =>
    rw [if_pos (by rw [htwice]; rfl)]
    refine ⟨_, rfl, hmap, ?_, fun w => ?_⟩
    · have hnew : sectionAt s i dnaLen ∉ scan.list := by
        rw [hfound]
        omega
      simpa [List.nodup_append] using ⟨hnodup, fun w hw h => hnew (h ▸ hw)⟩
    · rw [List.mem_append, List.mem_singleton, hfound]
      by_cases hw : w = sectionAt s i dnaLen
      case pos => rw [hw, htwice]; simp
      case neg => rw [hother w hw]; simp [hw]
  case neg =>
    rw [if_neg (by omega)]
    refine ⟨_, rfl, hmap, hnodup, fun w => ?_⟩
    rw [hfound]
    by_cases hw : w = sectionAt s i dnaLen
    case pos => rw [hw]; omega
    case neg => rw [hother w hw]

/-- A step that has a result has counted an `int`. -/
theorem scanStep_ok {next : Scan} (h : Scanned s i scan) (hstep : scanStep s i scan = .ok next) :
    (sections s dnaLen (i + 1)).count (sectionAt s i dnaLen) < 2 ^ 31 := by
  obtain ⟨count, hcount, -⟩ := exists_ok_of_trap_bind hstep
  have hint := (isInt_of_toInt hcount).1
  have hsub : (s.drop i).take dnaLen = sectionAt s i dnaLen := rfl
  rw [hsub, h.frequency] at hint
  rw [count_sections_succ, if_pos rfl]
  unfold IsInt at hint
  omega

theorem count_sections_le {k : Nat} (h : i ≤ k) :
    (sections s dnaLen i).count w ≤ (sections s dnaLen k).count w := by
  induction k, h using Nat.le_induction with
  | base => exact Nat.le_refl _
  | succ k _ ih =>
      rw [count_sections_succ]
      omega

/-- **The loop** counts the sequences at the places it looks at, where the counts are `int`s. -/
theorem scanLoop_eq (hint : ∀ w, scanned s w < 2 ^ 31) (h : Scanned s i scan)
    (hi : i ≤ s.length - dnaLen) (hfuel : s.length - dnaLen < fuel + i) :
    ∃ last, scanLoop s fuel i scan = .ok last ∧ Scanned s (s.length - dnaLen) last := by
  induction fuel generalizing i scan with
  | zero => omega
  | succ fuel ih =>
      rw [scanLoop]
      by_cases hgo : i + dnaLen < s.length
      case neg =>
        obtain rfl : i = s.length - dnaLen := by omega
        rw [if_neg hgo]
        exact ⟨scan, rfl, h⟩
      case pos =>
        obtain ⟨next, hstep, hnext⟩ := scanStep_eq h
          (Nat.lt_of_le_of_lt (count_sections_le (by omega)) (hint _))
        rw [if_pos hgo, hstep, trap_ok_bind]
        exact ih hnext (by omega) (by omega)

/-- A loop that has a result has counted `int`s only. -/
theorem scanLoop_ok {last : Scan} (h : Scanned s i scan) (hi : i ≤ s.length - dnaLen)
    (hint : ∀ w, (sections s dnaLen i).count w < 2 ^ 31)
    (hrun : scanLoop s fuel i scan = .ok last) : ∀ w, scanned s w < 2 ^ 31 := by
  induction fuel generalizing i scan with
  | zero => cases hrun
  | succ fuel ih =>
      rw [scanLoop] at hrun
      by_cases hgo : i + dnaLen < s.length
      case neg =>
        obtain rfl : i = s.length - dnaLen := by omega
        exact hint
      case pos =>
        rw [if_pos hgo] at hrun
        obtain ⟨next, hstep, hrest⟩ := exists_ok_of_trap_bind hrun
        have hcount := scanStep_ok h hstep
        obtain ⟨next', hstep', hnext⟩ := scanStep_eq h hcount
        obtain rfl : next' = next := by
          rw [hstep'] at hstep
          exact Except.ok.inj hstep
        refine ih hnext (by omega) (fun w => ?_) hrest
        by_cases hw : sectionAt s i dnaLen = w
        case pos => rwa [← hw]
        case neg =>
          rw [count_sections_succ, if_neg hw]
          exact hint w

/-! ## The last window -/

/-- The list is complete exactly if the last window does not stand at one other place. -/
theorem isRepeated_iff {last : Scan} (h : Scanned s (s.length - dnaLen) last) :
    IsRepeated s last.list ↔ scanned s (sectionAt s (s.length - dnaLen) dnaLen) ≠ 1 := by
  by_cases hlength : dnaLen ≤ s.length
  case neg =>
    have hnone : s.length - dnaLen = 0 := by omega
    have hcount : ∀ w, (sections s dnaLen (s.length - dnaLen)).count w = 0 := fun w => by
      rw [hnone]
      rfl
    have hscanned : scanned s (sectionAt s (s.length - dnaLen) dnaLen) ≠ 1 := by
      rw [scanned, hcount]
      exact Nat.zero_ne_one
    refine ⟨fun _ => hscanned, fun _ => ⟨h.nodup, fun w => ?_⟩⟩
    rw [h.found, hcount]
    refine ⟨fun hle => by omega, ?_⟩
    rintro ⟨i, j, -, hj, -⟩
    omega
  case pos =>
    have hstep : ∀ w, OccursTwice s w ↔
        2 ≤ scanned s w + if sectionAt s (s.length - dnaLen) dnaLen = w then 1 else 0 := fun w => by
      rw [occursTwice_iff hlength, count_sections_succ, scanned]
    constructor
    · rintro ⟨-, hcomplete⟩ hone
      have hlast := hcomplete (sectionAt s (s.length - dnaLen) dnaLen)
      rw [h.found, hstep, if_pos rfl, hone] at hlast
      have hcount : (sections s dnaLen (s.length - dnaLen)).count
          (sectionAt s (s.length - dnaLen) dnaLen) = 1 := hone
      rw [hcount] at hlast
      omega
    · intro hne
      refine ⟨h.nodup, fun w => ?_⟩
      have hscanned : (sections s dnaLen (s.length - dnaLen)).count w = scanned s w := rfl
      rw [h.found, hstep, hscanned]
      split
      next hw =>
        rw [hw] at hne
        omega
      next => rw [Nat.add_zero]

/-- **`findRepeatedSequences`** returns all repeated sequences, each once, exactly if the last
window does not stand at one other place only and no count runs over. -/
theorem findRepeatedSequences_iff (s : List UInt8) :
    (∃ bound, ∀ fuel ≥ bound, ∃ list,
      findRepeatedSequences fuel s = .ok list ∧ IsRepeated s list) ↔
      scanned s (sectionAt s (s.length - dnaLen) dnaLen) ≠ 1 ∧ ∀ w, scanned s w < 2 ^ 31 := by
  have hrun : ∀ {fuel last}, scanLoop s fuel 0 ⟨[], fun _ => 0⟩ = .ok last →
      findRepeatedSequences fuel s = .ok last.list := by
    intro fuel last hloop
    rw [findRepeatedSequences, hloop]
    rfl
  constructor
  · rintro ⟨bound, hall⟩
    obtain ⟨list, hlist, hrepeated⟩ := hall (bound + s.length + 1) (by omega)
    obtain ⟨last, hloop, -⟩ := exists_ok_of_trap_bind hlist
    have hint := scanLoop_ok scanned_zero (Nat.zero_le _) (fun w => by simp [sections]) hloop
    obtain ⟨last', hloop', hlast⟩ := scanLoop_eq hint scanned_zero (Nat.zero_le _)
      (show s.length - dnaLen < bound + s.length + 1 + 0 by omega)
    rw [hrun hloop', Except.ok.injEq] at hlist
    rw [← hlist] at hrepeated
    exact ⟨(isRepeated_iff hlast).mp hrepeated, hint⟩
  · rintro ⟨hlast, hint⟩
    refine ⟨s.length + 1, fun fuel hfuel => ?_⟩
    obtain ⟨last, hloop, hscanned⟩ := scanLoop_eq hint scanned_zero (Nat.zero_le _)
      (show s.length - dnaLen < fuel + 0 by omega)
    exact ⟨last.list, hrun hloop, (isRepeated_iff hscanned).mpr hlast⟩

/-- Eleven equal characters: the sequence at the end is the one at the begin. -/
theorem findRepeatedSequences_eleven :
    (∀ fuel, findRepeatedSequences (fuel + 2) (List.replicate 11 0x41) = .ok []) ∧
      OccursTwice (List.replicate 11 0x41) (List.replicate 10 0x41) :=
  ⟨fun _ => rfl, 0, 1, Nat.zero_lt_one, Nat.le_refl 11, rfl, rfl⟩

end RepeatedSequences
end Quizzes
end InfinityLabs
