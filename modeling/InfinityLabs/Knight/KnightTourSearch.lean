import InfinityLabs.Knight.KnightTour
import Mathlib.Data.List.Chain

/-!
# The search is complete

With the timeout left aside, a call succeeds just when the knight can go on from its square through
all the squares that have not been visited.  That does not depend on the mode.
-/

namespace InfinityLabs
namespace Knight

open Lib Ds

/-- A knight's path from a square through all the squares not visited. -/
structure Continues (visited : BitArr) (cur : Nat) (path : List Nat) : Prop where
  nodup : path.Nodup
  mem_iff : ∀ n, n ∈ path ↔ n < NUM_OF_SQUARES ∧ visited.getBit n = false
  chain : (cur :: path).IsChain KnightStep

/-- There is such a path. -/
def CanContinue (visited : BitArr) (cur : Nat) : Prop :=
  ∃ path, Continues visited cur path

/-- The number of squares that have been visited. -/
def visitedCount (visited : BitArr) : Nat :=
  (List.range NUM_OF_SQUARES).countP visited.getBit

variable {visited : BitArr} {cur n : Nat}

/-- One more square has been visited. -/
theorem visitedCount_setOn (hn : n < NUM_OF_SQUARES) (hclear : visited.getBit n = false) :
    visitedCount (visited.setOn n) = visitedCount visited + 1 := by
  have hnodup : (List.range NUM_OF_SQUARES).Nodup := List.nodup_range
  have hlt : ∀ i ∈ List.range NUM_OF_SQUARES, i < BITARR_BITS := fun i => List.mem_range.mp
  obtain ⟨l, r, hsplit⟩ := List.append_of_mem (List.mem_range.mpr hn)
  unfold visitedCount
  rw [hsplit] at hnodup hlt ⊢
  have hne := fun i (hi : i ∈ l ++ r) => ne_of_mem_split hnodup hi
  have hleft : l.countP (visited.setOn n).getBit = l.countP visited.getBit := by
    apply List.countP_congr
    intro i hi
    rw [BitArr.getBit_setOn (hlt i (by simp [hi]))]
    simp [hne i (List.mem_append_left r hi)]
  have hright : r.countP (visited.setOn n).getBit = r.countP visited.getBit := by
    apply List.countP_congr
    intro i hi
    rw [BitArr.getBit_setOn (hlt i (by simp [hi]))]
    simp [hne i (List.mem_append_right l hi)]
  have hset : (visited.setOn n).getBit n = true := by
    rw [BitArr.getBit_setOn hn]
    simp
  rw [List.countP_append, List.countP_append, List.countP_cons_of_pos hset, hleft, hright,
    List.countP_cons_of_neg (by simp [hclear])]
  omega

/-- Some square has not been visited. -/
theorem exists_clear (hcount : visitedCount visited < NUM_OF_SQUARES) :
    ∃ n, n < NUM_OF_SQUARES ∧ visited.getBit n = false := by
  by_contra hnone
  have hall : (List.range NUM_OF_SQUARES).countP visited.getBit =
      (List.range NUM_OF_SQUARES).length := by
    rw [List.countP_eq_length]
    intro n hn
    by_contra hclear
    exact hnone ⟨n, List.mem_range.mp hn, Bool.eq_false_iff.mpr hclear⟩
  rw [List.length_range] at hall
  exact absurd hall (Nat.ne_of_lt hcount)

/-- All squares have been visited. -/
theorem continues_nil (hall : NUM_OF_SQUARES ≤ visitedCount visited) :
    Continues visited cur [] where
  nodup := .nil
  mem_iff n := by
    have hle : visitedCount visited ≤ (List.range NUM_OF_SQUARES).length := List.countP_le_length
    rw [List.length_range] at hle
    have hcount : (List.range NUM_OF_SQUARES).countP visited.getBit =
        (List.range NUM_OF_SQUARES).length := by
      rw [List.length_range]
      exact Nat.le_antisymm hle hall
    have hset := List.countP_eq_length.mp hcount
    constructor
    · rintro ⟨⟩
    · rintro ⟨hn, hclear⟩
      rw [hset n (List.mem_range.mpr hn)] at hclear
      cases hclear
  chain := .singleton _

/-- The squares that are left after a move. -/
theorem mem_iff_setOn {path : List Nat} (hn : n ∉ path)
    (hmem : ∀ i, i ∈ n :: path ↔ i < NUM_OF_SQUARES ∧ visited.getBit i = false) (i : Nat) :
    i ∈ path ↔ i < NUM_OF_SQUARES ∧ (visited.setOn n).getBit i = false := by
  have hi := hmem i
  rw [List.mem_cons] at hi
  by_cases hlt : i < NUM_OF_SQUARES
  case neg =>
    simp only [hlt, false_and, iff_false, not_or] at hi ⊢
    exact hi.2
  case pos =>
    rw [BitArr.getBit_setOn hlt]
    by_cases hin : i = n
    case pos =>
      subst hin
      simp [hn]
    case neg => simpa [hlt, hin] using hi

/-- A path goes on with one of the knight's moves and then from there. -/
theorem canContinue_iff (hcount : visitedCount visited < NUM_OF_SQUARES) :
    CanContinue visited cur ↔ ∃ n, (n < NUM_OF_SQUARES ∧ KnightStep cur n ∧
      visited.getBit n = false) ∧ CanContinue (visited.setOn n) n := by
  constructor
  · rintro ⟨path, hnodup, hmem, hchain⟩
    cases path with
    | nil =>
        obtain ⟨n, hn⟩ := exists_clear hcount
        cases (hmem n).mpr hn
    | cons n path =>
        obtain ⟨hn, hnodup⟩ := List.nodup_cons.mp hnodup
        obtain ⟨hstep, hchain⟩ := List.isChain_cons_cons.mp hchain
        obtain ⟨hlt, hclear⟩ := (hmem n).mp List.mem_cons_self
        exact ⟨n, ⟨hlt, hstep, hclear⟩, path, hnodup, mem_iff_setOn hn hmem, hchain⟩
  · rintro ⟨n, ⟨hlt, hstep, hclear⟩, path, hnodup, hmem, hchain⟩
    have hn : n ∉ path := by
      intro hpath
      have hset := ((hmem n).mp hpath).2
      rw [BitArr.getBit_setOn hlt] at hset
      simp at hset
    refine ⟨n :: path, List.nodup_cons.mpr ⟨hn, hnodup⟩, fun i => ?_,
      List.isChain_cons_cons.mpr ⟨hstep, hchain⟩⟩
    rw [List.mem_cons, hmem]
    by_cases hin : i = n
    case pos => simp [hin, hlt, hclear]
    case neg =>
      by_cases hi : i < NUM_OF_SQUARES
      case pos => simp [hi, hin, BitArr.getBit_setOn hi]
      case neg => simp [hi, hin]

/-! ## The verdict -/

/-- What a call answers when it is not timed out: a success, or a failure with the visited squares
as they were, according to whether the knight can go on. -/
def Decides (visited : BitArr) (cur : Nat) (result : Option (Status × Search)) : Prop :=
  ∃ status s, result = some (status, s) ∧
    (status = .success ∧ CanContinue visited cur ∨
      status = .fail ∧ ¬ CanContinue visited cur ∧ s.visited = visited)

/-- The moves are tried until one of them can go on. -/
theorem tryEach_decides {recurse : Search → Nat → Nat → Option (Status × Search)}
    {moveCount : Nat} {moves : List Move} {s : Search} (hs : s.visited = visited)
    (hclear : ∀ n ∈ squares moves, visited.getBit n = false)
    (hrecurse : ∀ (s : Search) n, n ∈ squares moves → s.visited = visited.setOn n →
      Decides (visited.setOn n) n (recurse s n (moveCount + 1))) :
    ∃ status s', tryEach recurse moveCount moves s = some (status, s') ∧
      (status = .success ∧ (∃ n ∈ squares moves, CanContinue (visited.setOn n) n) ∨
        status = .fail ∧ (∀ n ∈ squares moves, ¬ CanContinue (visited.setOn n) n) ∧
          s'.visited = visited) := by
  induction moves generalizing s with
  | nil => exact ⟨.fail, s, rfl, Or.inr ⟨rfl, by rintro n ⟨⟩, hs⟩⟩
  | cons m moves ih =>
      have hplayed : (s.play m moveCount).visited = visited.setOn m.squareIdx := by
        rw [← hs]
        rfl
      obtain ⟨status, s', hresult, ⟨rfl, hgo⟩ | ⟨rfl, hstuck, hrestored⟩⟩ :=
        hrecurse _ m.squareIdx List.mem_cons_self hplayed
      · unfold tryEach
        rw [hresult]
        exact ⟨.success, s', rfl, Or.inl ⟨rfl, m.squareIdx, List.mem_cons_self, hgo⟩⟩
      · have hundone : (s'.undo m).visited = visited := by
          show s'.visited.setOff m.squareIdx = visited
          rw [hrestored]
          exact BitArr.setOff_setOn (hclear _ List.mem_cons_self)
        obtain ⟨status, s₂, hrest, hverdict⟩ :=
          ih hundone (fun n hn => hclear n (List.mem_cons_of_mem _ hn))
            fun s n hn => hrecurse s n (List.mem_cons_of_mem _ hn)
        unfold tryEach
        rw [hresult]
        refine ⟨status, s₂, hrest, ?_⟩
        rcases hverdict with ⟨rfl, n, hn, hgo⟩ | ⟨rfl, hnone, hvisited⟩
        · exact Or.inl ⟨rfl, n, List.mem_cons_of_mem _ hn, hgo⟩
        · exact Or.inr ⟨rfl, List.forall_mem_cons.mpr ⟨hstuck, hnone⟩, hvisited⟩

/-- A call that is never timed out decides whether the knight can go on. -/
theorem knightTourRecursive_decides {clock : Nat → Nat} (hclock : ∀ t, clock t ≤ TIMEOUT_TIME)
    (useHeuristic : Bool) {fuel moveCount : Nat} {s : Search} (hcur : cur < NUM_OF_SQUARES)
    (hmatch : moveCount = visitedCount s.visited + 1)
    (hfuel : NUM_OF_SQUARES + 1 < fuel + moveCount) :
    Decides s.visited cur (knightTourRecursive clock useHeuristic fuel s cur moveCount) := by
  induction fuel generalizing s cur moveCount with
  | zero =>
      have hle : visitedCount s.visited ≤ (List.range NUM_OF_SQUARES).length :=
        List.countP_le_length
      rw [List.length_range] at hle
      omega
  | succ fuel ih =>
      have hnotTimedOut : ¬ TIMEOUT_TIME < clock s.ticks := Nat.not_lt.mpr (hclock s.ticks)
      unfold knightTourRecursive
      dsimp only
      rw [if_neg hnotTimedOut]
      by_cases hcomplete : NUM_OF_SQUARES < moveCount
      case pos =>
        rw [if_pos hcomplete]
        exact ⟨.success, _, rfl, Or.inl ⟨rfl, [], continues_nil (by omega)⟩⟩
      case neg =>
        rw [if_neg hcomplete]
        obtain ⟨hmoves, hvisited⟩ := orderMoves_spec hcur s.visited useHeuristic
        have hdeeper : ∀ (s' : Search) n,
            n ∈ squares (orderMoves useHeuristic cur s.visited).1 →
            s'.visited = s.visited.setOn n → Decides (s.visited.setOn n) n
              (knightTourRecursive clock useHeuristic fuel s' n (moveCount + 1)) := by
          intro s' n hn hs'
          obtain ⟨hlt, -, hclear⟩ := (hmoves n).mp hn
          have hcount := visitedCount_setOn hlt hclear
          rw [← hs']
          exact ih hlt (by rw [hs']; omega) (by omega)
        have hclear := fun n hn => ((hmoves n).mp hn).2.2
        unfold tryMoves
        dsimp only
        rw [hvisited]
        have hcount : visitedCount s.visited < NUM_OF_SQUARES := by omega
        obtain ⟨status, s', hresult, hverdict⟩ := tryEach_decides
          (s := { board := s.board, visited := s.visited, ticks := s.ticks + 1 }) rfl hclear hdeeper
        refine ⟨status, s', hresult, ?_⟩
        rw [canContinue_iff hcount]
        rcases hverdict with ⟨rfl, n, hn, hgo⟩ | ⟨rfl, hnone, hrestored⟩
        · exact Or.inl ⟨rfl, n, (hmoves n).mp hn, hgo⟩
        · refine Or.inr ⟨rfl, ?_, hrestored⟩
          rintro ⟨n, hn, hgo⟩
          exact hnone n ((hmoves n).mpr hn) hgo

/-- The two modes agree on every square and every set of visited squares with the matching move
count.  They succeed just when the knight can go on, and when they fail the visited squares are
those of before the call. -/
theorem knightTourRecursive_complete {plainClock heuristicClock : Nat → Nat}
    (hplain : ∀ t, plainClock t ≤ TIMEOUT_TIME)
    (hheuristic : ∀ t, heuristicClock t ≤ TIMEOUT_TIME) {fuel moveCount : Nat} {s : Search}
    (hcur : cur < NUM_OF_SQUARES) (hmatch : moveCount = visitedCount s.visited + 1)
    (hfuel : NUM_OF_SQUARES + 1 < fuel + moveCount) :
    ∃ verdict plain heuristic,
      knightTourRecursive plainClock false fuel s cur moveCount = some (verdict, plain) ∧
      knightTourRecursive heuristicClock true fuel s cur moveCount = some (verdict, heuristic) ∧
      (verdict = .success ∧ CanContinue s.visited cur ∨
        verdict = .fail ∧ ¬ CanContinue s.visited cur ∧ plain.visited = s.visited ∧
          heuristic.visited = s.visited) := by
  obtain ⟨status, plain, hrun, hverdict⟩ :=
    knightTourRecursive_decides hplain false hcur hmatch hfuel
  obtain ⟨status', heuristic, hrun', hverdict'⟩ :=
    knightTourRecursive_decides hheuristic true hcur hmatch hfuel
  rcases hverdict with ⟨rfl, hgo⟩ | ⟨rfl, hstuck, hrestored⟩
  · obtain ⟨rfl, -⟩ | ⟨-, hstuck, -⟩ := hverdict'
    · exact ⟨.success, plain, heuristic, hrun, hrun', Or.inl ⟨rfl, hgo⟩⟩
    · exact absurd hgo hstuck
  · obtain ⟨-, hgo⟩ | ⟨rfl, -, hrestored'⟩ := hverdict'
    · exact absurd hgo hstuck
    · exact ⟨.fail, plain, heuristic, hrun, hrun', Or.inr ⟨rfl, hstuck, hrestored, hrestored'⟩⟩

/-- All squares but two have been visited, and the knight stands beside one of them. -/
def twoLeft : Search where
  board := fun _ _ => 0
  visited := BitArr.setOff (BitArr.setOff (BitVec.allOnes 64) 17) 63
  ticks := 0

theorem twoLeft_complete : ∃ verdict plain heuristic,
    knightTourRecursive (fun _ => 0) false 64 twoLeft 0 63 = some (verdict, plain) ∧
    knightTourRecursive (fun _ => 0) true 64 twoLeft 0 63 = some (verdict, heuristic) ∧
    (verdict = .success ∧ CanContinue twoLeft.visited 0 ∨
      verdict = .fail ∧ ¬ CanContinue twoLeft.visited 0 ∧ plain.visited = twoLeft.visited ∧
        heuristic.visited = twoLeft.visited) :=
  knightTourRecursive_complete (fun _ => Nat.zero_le _) (fun _ => Nat.zero_le _) (by decide)
    (by decide +kernel) (by decide)

end Knight
end InfinityLabs
