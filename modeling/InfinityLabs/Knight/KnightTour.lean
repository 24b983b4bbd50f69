import InfinityLabs.Ds.BitArr
import InfinityLabs.Lib.ListParts
import Mathlib.Algebra.Group.Int.Defs
import Mathlib.Tactic.Common

/-!
# Knight's tour

`projects/knight_tour/src/knight_tour.c`: a backtracking search over the squares of a chess board,
with Warnsdorff's heuristic when it is asked for.  The visited squares are the bits of a word.
-/

namespace InfinityLabs
namespace Knight

open Lib Ds

/-- The side of the board. -/
def CHESS_LEN : Nat := 8

/-- The squares of the board. -/
def NUM_OF_SQUARES : Nat := CHESS_LEN * CHESS_LEN

/-- The entry of the table for a move off the board. -/
def NO_VALID_MOVE : Nat := 255

/-- The seconds after which a search is given up. -/
def TIMEOUT_TIME : Nat := 300

/-- `chess_square_t`. -/
structure Square where
  row : Nat
  column : Nat
  deriving DecidableEq, Repr

/-- `knight_tour_status_e`. -/
inductive Status where
  | success
  | fail
  | timeout
  deriving DecidableEq, Repr

/-- `knight_moves_lut`. -/
def knightMovesLut : List (Int × Int) :=
  [(2, 1), (1, 2), (-1, 2), (-2, 1), (-2, -1), (-1, -2), (1, -2), (2, -1)]

/-- `ConvertSquareToIndex`. -/
def convertSquareToIndex (square : Square) : Nat :=
  CHESS_LEN * square.row + square.column

/-- `ConvertIndexToSquare`. -/
def convertIndexToSquare (idx : Nat) : Square where
  row := idx / CHESS_LEN
  column := idx % CHESS_LEN

/-- `IsValidPosition`. -/
def isValidPosition (row col : Nat) : Bool :=
  decide (row < CHESS_LEN) && decide (col < CHESS_LEN)

/-- An `int` converted to a `size_t`. -/
def toSize (x : Int) : Nat :=
  (x % 2 ^ 64).toNat

/-- What `PrecomputeValidMoves` stores for square `i` and one of the moves. -/
def precomputedMove (i : Nat) (move : Int × Int) : Nat :=
  let currentSquare := convertIndexToSquare i
  let newRow := (currentSquare.row : Int) + move.1
  let newCol := (currentSquare.column : Int) + move.2
  if isValidPosition (toSize newRow) (toSize newCol) ∧ 0 ≤ newRow ∧ 0 ≤ newCol then
    convertSquareToIndex ⟨toSize newRow, toSize newCol⟩
  else NO_VALID_MOVE

/-- The row of `precomputed_moves` for square `i`. -/
def precomputedMoves (i : Nat) : List Nat :=
  knightMovesLut.map (precomputedMove i)

/-- `move_t`. -/
structure Move where
  squareIdx : Nat
  accessibility : Nat
  deriving DecidableEq, Repr

/-- The numbers on the board, by row and column. -/
abbrev Board :=
  Nat → Nat → Nat

/-- `board[square.row][square.column] = n`. -/
def Board.put (board : Board) (square : Square) (n : Nat) : Board :=
  fun row col => if row = square.row ∧ col = square.column then n else board row col

/-- What the search changes: the board, the visited squares and how often the clock was read. -/
structure Search where
  board : Board
  visited : BitArr
  ticks : Nat

/-- A move of the table leads to a square that has not been visited. -/
def isOpen (visited : BitArr) (next : Nat) : Bool :=
  decide (next ≠ NO_VALID_MOVE) && !visited.getBit next

/-- `CountAccessibleMoves`. -/
def countAccessibleMoves (squareIdx : Nat) (visited : BitArr) : Nat :=
  (precomputedMoves squareIdx).countP (isOpen visited)

/-- `GetValidMoves`: the part of the array that it fills. -/
def getValidMoves (currentIdx : Nat) (visited : BitArr) : List Move :=
  ((precomputedMoves currentIdx).filter (isOpen visited)).map fun next => ⟨next, 0⟩

/-- The inner loop of `InsertionSortMoves`, from `j` down: it makes room for `key`. -/
def shiftMoves (key : Move) : Nat → List Move → List Move
  | 0, moves => moves.set 0 key
  | j + 1, moves =>
      match moves[j]? with
      | none => moves
      | some m =>
          if key.accessibility < m.accessibility then shiftMoves key j (moves.set (j + 1) m)
          else moves.set (j + 1) key

/-- `InsertionSortMoves`. -/
def insertionSortMoves (moves : List Move) (count : Nat) : List Move :=
  (List.range' 1 (count - 1)).foldl (fun moves i =>
    match moves[i]? with
    | none => moves
    | some key => shiftMoves key i moves) moves

/-- The loop of `TryMoves` that sets the accessibilities, with each move played while it counts. -/
def scoreMoves : List Move → BitArr → List Move × BitArr
  | [], visited => ([], visited)
  | m :: moves, visited =>
      let played := visited.setOn m.squareIdx
      let accessibility := countAccessibleMoves m.squareIdx played
      let (scored, visited) := scoreMoves moves (played.setOff m.squareIdx)
      ({ m with accessibility := accessibility } :: scored, visited)

/-- The moves that `TryMoves` tries, in its order, and the visited squares. -/
def orderMoves (useHeuristic : Bool) (currentIdx : Nat) (visited : BitArr) :
    List Move × BitArr :=
  let moves := getValidMoves currentIdx visited
  if useHeuristic then
    let (scored, visited) := scoreMoves moves visited
    (insertionSortMoves scored moves.length, visited)
  else (moves, visited)

/-- A square is marked as visited and numbered. -/
def Search.play (s : Search) (m : Move) (moveCount : Nat) : Search :=
  { s with
    board := s.board.put (convertIndexToSquare m.squareIdx) moveCount
    visited := s.visited.setOn m.squareIdx }

/-- The square is taken back. -/
def Search.undo (s : Search) (m : Move) : Search :=
  { s with
    board := s.board.put (convertIndexToSquare m.squareIdx) 0
    visited := s.visited.setOff m.squareIdx }

/-- The last loop of `TryMoves`; `recurse` is the call of `KnightTourRecursive`. -/
def tryEach (recurse : Search → Nat → Nat → Option (Status × Search)) (moveCount : Nat) :
    List Move → Search → Option (Status × Search)
  | [], s => some (.fail, s)
  | m :: moves, s =>
      match recurse (s.play m moveCount) m.squareIdx (moveCount + 1) with
      | none => none
      | some (.fail, s) => tryEach recurse moveCount moves (s.undo m)
      | some result => some result

/-- `TryMoves`. -/
def tryMoves (recurse : Search → Nat → Nat → Option (Status × Search)) (useHeuristic : Bool)
    (s : Search) (currentIdx moveCount : Nat) : Option (Status × Search) :=
  let (moves, visited) := orderMoves useHeuristic currentIdx s.visited
  tryEach recurse moveCount moves { s with visited := visited }

/-- `KnightTourRecursive`; `clock` tells what `EndTimer` answers each time, and `fuel` bounds the
depth of the calls. -/
def knightTourRecursive (clock : Nat → Nat) (useHeuristic : Bool) :
    Nat → Search → Nat → Nat → Option (Status × Search)
  | 0, _, _, _ => none
  | fuel + 1, s, currentIdx, moveCount =>
      let elapsed := clock s.ticks
      let s := { s with ticks := s.ticks + 1 }
      if TIMEOUT_TIME < elapsed then some (.timeout, s)
      else if NUM_OF_SQUARES < moveCount then some (.success, s)
      else
        tryMoves (knightTourRecursive clock useHeuristic fuel) useHeuristic s currentIdx moveCount

/-- `KnightTour`. -/
def knightTour (clock : Nat → Nat) (board : Board) (startSquare : Square) (isHeuristic : Bool) :
    Option (Status × Board) :=
  if isValidPosition startSquare.row startSquare.column then
    let startIdx := convertSquareToIndex startSquare
    let s : Search :=
      { board := board.put startSquare 1
        visited := BitArr.setOn 0 startIdx
        ticks := 0 }
    (knightTourRecursive clock isHeuristic NUM_OF_SQUARES s startIdx 2).map fun r =>
      (r.1, r.2.board)
  else some (.fail, board)

/-! ## Moves of a knight -/

/-- One square is a knight's move from the other. -/
def IsKnightMove (a b : Square) : Prop :=
  ((a.row : Int) - b.row).natAbs = 1 ∧ ((a.column : Int) - b.column).natAbs = 2 ∨
    ((a.row : Int) - b.row).natAbs = 2 ∧ ((a.column : Int) - b.column).natAbs = 1

instance (a b : Square) : Decidable (IsKnightMove a b) :=
  inferInstanceAs (Decidable (_ ∨ _))

/-- The squares of two indices are a knight's move apart. -/
def KnightStep (i j : Nat) : Prop :=
  IsKnightMove (convertIndexToSquare i) (convertIndexToSquare j)

instance (i j : Nat) : Decidable (KnightStep i j) :=
  inferInstanceAs (Decidable (IsKnightMove _ _))

/-- The table holds knight's moves. -/
theorem table_sound : ∀ i : Fin 64, ∀ n ∈ precomputedMoves i,
    n ≠ NO_VALID_MOVE → n < NUM_OF_SQUARES ∧ KnightStep i n := by
  decide +kernel

/-- The table holds all knight's moves. -/
theorem table_complete : ∀ i n : Fin 64, KnightStep i n → (n : Nat) ∈ precomputedMoves i := by
  decide +kernel

/-- The moves of the table that lead to a square that has not been visited. -/
theorem mem_filter_isOpen {i n : Nat} {visited : BitArr} (hi : i < NUM_OF_SQUARES) :
    n ∈ (precomputedMoves i).filter (isOpen visited) ↔
      n < NUM_OF_SQUARES ∧ KnightStep i n ∧ visited.getBit n = false := by
  have hopen : isOpen visited n = true ↔ n ≠ NO_VALID_MOVE ∧ visited.getBit n = false := by
    simp [isOpen]
  rw [List.mem_filter, hopen]
  constructor
  · rintro ⟨hmem, hne, hclear⟩
    obtain ⟨hlt, hstep⟩ := table_sound ⟨i, hi⟩ n hmem hne
    exact ⟨hlt, hstep, hclear⟩
  · rintro ⟨hlt, hstep, hclear⟩
    refine ⟨table_complete ⟨i, hi⟩ ⟨n, hlt⟩ hstep, ?_, hclear⟩
    rintro rfl
    exact absurd hlt (by decide)

/-! ## The order of the moves -/

/-- The squares that moves lead to. -/
def squares (moves : List Move) : List Nat :=
  moves.map Move.squareIdx

theorem squares_getValidMoves (i : Nat) (visited : BitArr) :
    squares (getValidMoves i visited) = (precomputedMoves i).filter (isOpen visited) := by
  unfold squares getValidMoves
  rw [List.map_map]
  exact List.map_id _

/-- Making room for an element only moves it. -/
theorem shiftMoves_perm (key : Move) {j : Nat} {moves : List Move} (hj : j < moves.length) :
    (shiftMoves key j moves).Perm (moves.set j key) := by
  induction j generalizing moves with
  | zero => exact .refl _
  | succ j ih =>
      obtain ⟨l, m, r, rfl, rfl⟩ := exists_append_cons_of_lt (Nat.lt_of_succ_lt hj)
      cases r with
      | nil => simp at hj
      | cons x r =>
          unfold shiftMoves
          rw [getElem?_split]
          dsimp only
          split
          case isTrue =>
            refine (ih (by simp)).trans ?_
            have hswap : (l ++ key :: m :: r).Perm (l ++ m :: key :: r) :=
              (List.Perm.swap m key r).append_left l
            simpa [List.set_append] using hswap
          case isFalse => exact .refl _

/-- Sorting rearranges the moves. -/
theorem insertionSortMoves_perm (moves : List Move) :
    (insertionSortMoves moves moves.length).Perm moves := by
  have hloop : ∀ (indices : List Nat) (ms : List Move), (indices.foldl (fun moves i =>
      match moves[i]? with
      | none => moves
      | some key => shiftMoves key i moves) ms).Perm ms := by
    intro indices
    induction indices with
    | nil => exact fun ms => .refl ms
    | cons i indices ih =>
        intro ms
        rw [List.foldl_cons]
        refine (ih _).trans ?_
        cases hkey : ms[i]? with
        | none => exact .refl ms
        | some key =>
            obtain ⟨hi, rfl⟩ := List.getElem?_eq_some_iff.mp hkey
            have hset : ms.set i ms[i] = ms := List.set_getElem_self hi
            exact (shiftMoves_perm ms[i] hi).trans (.of_eq hset)
  exact hloop _ moves

/-- Scoring takes every move back that it plays. -/
theorem scoreMoves_spec {moves : List Move} {visited : BitArr}
    (hclear : ∀ n ∈ squares moves, visited.getBit n = false) :
    squares (scoreMoves moves visited).1 = squares moves ∧
      (scoreMoves moves visited).2 = visited := by
  induction moves with
  | nil => exact ⟨rfl, rfl⟩
  | cons m moves ih =>
      have hm : visited.getBit m.squareIdx = false := hclear _ List.mem_cons_self
      obtain ⟨hsquares, hvisited⟩ := ih fun n hn => hclear n (List.mem_cons_of_mem _ hn)
      unfold scoreMoves
      dsimp only
      rw [BitArr.setOff_setOn hm]
      exact ⟨congrArg (m.squareIdx :: ·) hsquares, hvisited⟩

/-- In either mode the moves tried are the knight's moves to squares not visited, and the visited
squares stay as they are. -/
theorem orderMoves_spec {i : Nat} (hi : i < NUM_OF_SQUARES) (visited : BitArr) (h : Bool) :
    (∀ n, n ∈ squares (orderMoves h i visited).1 ↔
      n < NUM_OF_SQUARES ∧ KnightStep i n ∧ visited.getBit n = false) ∧
    (orderMoves h i visited).2 = visited := by
  have hvalid : ∀ n, n ∈ squares (getValidMoves i visited) ↔
      n < NUM_OF_SQUARES ∧ KnightStep i n ∧ visited.getBit n = false := by
    intro n
    rw [squares_getValidMoves, mem_filter_isOpen hi]
  cases h with
  | false => exact ⟨hvalid, rfl⟩
  | true =>
      have hclear : ∀ n ∈ squares (getValidMoves i visited), visited.getBit n = false :=
        fun n hn => ((hvalid n).mp hn).2.2
      obtain ⟨hsquares, hvisited⟩ := scoreMoves_spec hclear
      have hlength := congrArg List.length hsquares
      unfold squares at hlength
      rw [List.length_map, List.length_map] at hlength
      have hperm := (insertionSortMoves_perm (scoreMoves (getValidMoves i visited) visited).1).map
        Move.squareIdx
      rw [hlength] at hperm
      refine ⟨fun n => ?_, hvisited⟩
      rw [← hvalid, ← hsquares]
      exact hperm.mem_iff

end Knight
end InfinityLabs
