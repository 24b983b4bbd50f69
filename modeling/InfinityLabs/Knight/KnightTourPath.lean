import InfinityLabs.Knight.KnightTour
import Mathlib.Data.List.Chain
import Mathlib.Data.List.Perm.Subperm

/-!
# The board of a reported tour

The squares visited so far form a path of the knight, numbered on the board in their order.  A
failed branch takes its own squares back and leaves the path as it was.
-/

namespace InfinityLabs
namespace Knight

open Lib Ds

/-- The search has come along a path. -/
structure Search.Follows (s : Search) (path : List Nat) : Prop where
  chain : path.IsChain KnightStep
  nodup : path.Nodup
  lt : ∀ i ∈ path, i < NUM_OF_SQUARES
  visited : ∀ i, i < NUM_OF_SQUARES → s.visited.getBit i = decide (i ∈ path)
  board : ∀ (k : Nat) i, path[k]? = some i →
    s.board (convertIndexToSquare i).row (convertIndexToSquare i).column = k + 1

/-- Different indices are different squares. -/
theorem convertIndexToSquare_injective {i j : Nat}
    (h : convertIndexToSquare i = convertIndexToSquare j) : i = j := by
  simp only [convertIndexToSquare, Square.mk.injEq, CHESS_LEN] at h
  omega

/-- The square that is written. -/
theorem Board.put_same (board : Board) (square : Square) (n : Nat) :
    board.put square n square.row square.column = n :=
  if_pos ⟨rfl, rfl⟩

/-- The other squares. -/
theorem Board.put_of_ne (board : Board) {square other : Square} (n : Nat) (h : other ≠ square) :
    board.put square n other.row other.column = board other.row other.column := by
  apply if_neg
  rintro ⟨hrow, hcolumn⟩
  exact h (by cases other; cases square; simp_all)

namespace Search.Follows

variable {s s' : Search} {path : List Nat} {m : Move} {cur : Nat}

/-- The clock does not matter. -/
theorem congr (h : s.Follows path) (hboard : s'.board = s.board)
    (hvisited : s'.visited = s.visited) : s'.Follows path where
  chain := h.chain
  nodup := h.nodup
  lt := h.lt
  visited := hvisited ▸ h.visited
  board := hboard ▸ h.board

/-- A path has room on the board. -/
theorem length_le (h : s.Follows path) : path.length ≤ NUM_OF_SQUARES := by
  have hsub : path ⊆ List.range NUM_OF_SQUARES := fun i hi => List.mem_range.mpr (h.lt i hi)
  have hle := (List.subperm_of_subset h.nodup hsub).length_le
  rwa [List.length_range] at hle

/-- A path with as many squares as the board visits all of them. -/
theorem mem_of_lt (h : s.Follows path) (hlength : path.length = NUM_OF_SQUARES) {i : Nat}
    (hi : i < NUM_OF_SQUARES) : i ∈ path := by
  have hsub : path ⊆ List.range NUM_OF_SQUARES := fun i hi => List.mem_range.mpr (h.lt i hi)
  have hperm : path.Perm (List.range NUM_OF_SQUARES) :=
    (List.subperm_of_subset h.nodup hsub).perm_of_length_le (by simp [hlength])
  exact hperm.mem_iff.mpr (List.mem_range.mpr hi)

/-- A move to a square not visited goes on along the path. -/
theorem play (h : s.Follows path) (hcur : path.getLast? = some cur)
    (hlt : m.squareIdx < NUM_OF_SQUARES) (hstep : KnightStep cur m.squareIdx)
    (hclear : s.visited.getBit m.squareIdx = false) :
    (s.play m (path.length + 1)).Follows (path ++ [m.squareIdx]) := by
  have hnew : m.squareIdx ∉ path := by
    have hvisited := h.visited _ hlt
    rw [hclear] at hvisited
    exact of_decide_eq_false hvisited.symm
  refine ⟨?_, ?_, forall_mem_concat h.lt hlt, fun i hi => ?_, fun k i hk => ?_⟩
  · rw [List.isChain_append]
    refine ⟨h.chain, .singleton _, fun x hx y hy => ?_⟩
    rw [hcur] at hx
    cases hx
    cases hy
    exact hstep
  · simpa [List.nodup_append] using ⟨h.nodup, fun i hi heq => hnew (heq ▸ hi)⟩
  · show (s.visited.setOn m.squareIdx).getBit i = _
    rw [BitArr.getBit_setOn hi, h.visited i hi]
    simp [or_comm]
  · show s.board.put (convertIndexToSquare m.squareIdx) (path.length + 1) _ _ = k + 1
    rcases of_getElem?_append_singleton hk with ⟨hlength, hold⟩ | ⟨rfl, rfl⟩
    · have hne : convertIndexToSquare i ≠ convertIndexToSquare m.squareIdx := fun heq =>
        hnew (convertIndexToSquare_injective heq ▸ List.mem_of_getElem? hold)
      rw [Board.put_of_ne _ _ hne, h.board k i hold]
    · exact Board.put_same _ _ _

/-- A move that is taken back leaves the path before it. -/
theorem undo (h : s.Follows (path ++ [m.squareIdx])) : (s.undo m).Follows path := by
  have hnodup : path.Nodup ∧ m.squareIdx ∉ path := by
    have hall := h.nodup
    rw [List.nodup_append] at hall
    exact ⟨hall.1, fun hmem => hall.2.2 _ hmem _ List.mem_cons_self rfl⟩
  refine ⟨h.chain.left_of_append, hnodup.1, fun i hi => h.lt i (List.mem_append_left _ hi),
    fun i hi => ?_, fun k i hk => ?_⟩
  · show (s.visited.setOff m.squareIdx).getBit i = _
    rw [BitArr.getBit_setOff hi, h.visited i hi]
    by_cases him : i = m.squareIdx
    case pos => simp [him, hnodup.2]
    case neg => simp [him]
  · show s.board.put (convertIndexToSquare m.squareIdx) 0 _ _ = k + 1
    have hne : convertIndexToSquare i ≠ convertIndexToSquare m.squareIdx := fun heq =>
      hnodup.2 (convertIndexToSquare_injective heq ▸ List.mem_of_getElem? hk)
    rw [Board.put_of_ne _ _ hne]
    apply h.board k i
    rw [List.getElem?_append_left (List.getElem?_eq_some_iff.mp hk).1, hk]

end Search.Follows

/-! ## The search -/

/-- What a call answers that has come along `path`: a whole path, or the same path again. -/
def Answers (path : List Nat) (result : Option (Status × Search)) : Prop :=
  ∃ status s, result = some (status, s) ∧
    (status = .success → ∃ rest, s.Follows (path ++ rest) ∧
      (path ++ rest).length = NUM_OF_SQUARES) ∧
    (status = .fail → s.Follows path)

/-- The moves are tried one after the other, each from the same path. -/
theorem tryEach_answers {recurse : Search → Nat → Nat → Option (Status × Search)} {cur : Nat}
    {path : List Nat} {moves : List Move} {s : Search} (hs : s.Follows path)
    (hcur : path.getLast? = some cur)
    (hmoves : ∀ n ∈ squares moves, n < NUM_OF_SQUARES ∧ KnightStep cur n ∧
      s.visited.getBit n = false)
    (hrecurse : ∀ s n, s.Follows (path ++ [n]) →
      Answers (path ++ [n]) (recurse s n (path.length + 2))) :
    Answers path (tryEach recurse (path.length + 1) moves s) := by
  induction moves generalizing s with
  | nil => exact ⟨.fail, s, rfl, by rintro ⟨⟩, fun _ => hs⟩
  | cons m moves ih =>
      obtain ⟨hlt, hstep, hclear⟩ := hmoves m.squareIdx List.mem_cons_self
      have hplay := hs.play hcur hlt hstep hclear
      obtain ⟨status, s', hresult, hsuccess, hfail⟩ := hrecurse _ _ hplay
      unfold tryEach
      rw [hresult]
      cases status with
      | fail =>
          have hundo := (hfail rfl).undo
          refine ih hundo fun n hn => ?_
          obtain ⟨hnlt, hnstep, hnclear⟩ := hmoves n (List.mem_cons_of_mem _ hn)
          refine ⟨hnlt, hnstep, ?_⟩
          rwa [hundo.visited n hnlt, ← hs.visited n hnlt]
      | success =>
          obtain ⟨rest, hrest, hlength⟩ := hsuccess rfl
          rw [List.append_assoc] at hrest hlength
          exact ⟨.success, s', rfl, fun _ => ⟨_, hrest, hlength⟩, by rintro ⟨⟩⟩
      | timeout => exact ⟨.timeout, s', rfl, by rintro ⟨⟩, by rintro ⟨⟩⟩

/-- A call that has come along a path answers. -/
theorem knightTourRecursive_answers (clock : Nat → Nat) (useHeuristic : Bool) {fuel cur : Nat}
    {path : List Nat} {s : Search} (hs : s.Follows path) (hcur : path.getLast? = some cur)
    (hfuel : NUM_OF_SQUARES < fuel + path.length) :
    Answers path (knightTourRecursive clock useHeuristic fuel s cur (path.length + 1)) := by
  induction fuel generalizing s path cur with
  | zero =>
      have hle := hs.length_le
      omega
  | succ fuel ih =>
      have hticked : Search.Follows { s with ticks := s.ticks + 1 } path := hs.congr rfl rfl
      unfold knightTourRecursive
      dsimp only
      by_cases hclock : TIMEOUT_TIME < clock s.ticks
      case pos =>
        rw [if_pos hclock]
        exact ⟨.timeout, _, rfl, by rintro ⟨⟩, by rintro ⟨⟩⟩
      case neg =>
        rw [if_neg hclock]
        by_cases hcomplete : NUM_OF_SQUARES < path.length + 1
        case pos =>
          rw [if_pos hcomplete]
          have hle := hs.length_le
          refine ⟨.success, _, rfl, fun _ => ⟨[], ?_, ?_⟩, by rintro ⟨⟩⟩
          · rwa [List.append_nil]
          · rw [List.append_nil]
            omega
        case neg =>
          rw [if_neg hcomplete]
          have hcurLt : cur < NUM_OF_SQUARES := hs.lt cur (List.mem_of_getLast? hcur)
          obtain ⟨hmoves, hvisited⟩ := orderMoves_spec hcurLt s.visited useHeuristic
          unfold tryMoves
          dsimp only
          rw [hvisited]
          refine tryEach_answers hticked hcur (fun n hn => (hmoves n).mp hn) fun s' n hn => ?_
          have hlength : (path ++ [n]).length = path.length + 1 := by simp
          have hdeeper := ih hn List.getLast?_concat (by omega)
          rwa [hlength] at hdeeper

/-! ## Tours -/

/-- A square of the board. -/
def OnBoard (square : Square) : Prop :=
  square.row < CHESS_LEN ∧ square.column < CHESS_LEN

/-- The board shows a tour from the square. -/
structure IsTour (board : Board) (startSquare : Square) : Prop where
  once : ∀ n, 1 ≤ n → n ≤ NUM_OF_SQUARES → ∃ square, (OnBoard square ∧
    board square.row square.column = n) ∧
      ∀ other, OnBoard other → board other.row other.column = n → other = square
  first : board startSquare.row startSquare.column = 1
  steps : ∀ a b, OnBoard a → OnBoard b → 1 ≤ board a.row a.column →
    board b.row b.column = board a.row a.column + 1 → IsKnightMove a b

/-- The index of a square of the board. -/
theorem convertSquareToIndex_spec {square : Square} (h : OnBoard square) :
    convertSquareToIndex square < NUM_OF_SQUARES ∧
      convertIndexToSquare (convertSquareToIndex square) = square := by
  obtain ⟨hrow, hcolumn⟩ := h
  obtain ⟨row, column⟩ := square
  simp only [convertSquareToIndex, convertIndexToSquare, NUM_OF_SQUARES, CHESS_LEN,
    Square.mk.injEq] at *
  omega

theorem onBoard_convertIndexToSquare {i : Nat} (hi : i < NUM_OF_SQUARES) :
    OnBoard (convertIndexToSquare i) := by
  unfold OnBoard
  simp only [convertIndexToSquare, NUM_OF_SQUARES, CHESS_LEN] at *
  omega

/-- A path over the whole board is a tour. -/
theorem Search.Follows.isTour {s : Search} {path : List Nat} {start : Square} (h : s.Follows path)
    (hlength : path.length = NUM_OF_SQUARES) (hstart : OnBoard start)
    (hhead : path.head? = some (convertSquareToIndex start)) : IsTour s.board start := by
  have hcover : ∀ square, OnBoard square → ∃ k, path[k]? = some (convertSquareToIndex square) ∧
      s.board square.row square.column = k + 1 := by
    intro square hsquare
    obtain ⟨hlt, hinverse⟩ := convertSquareToIndex_spec hsquare
    obtain ⟨k, hk⟩ := List.getElem?_of_mem (h.mem_of_lt hlength hlt)
    have hboard := h.board k _ hk
    rw [hinverse] at hboard
    exact ⟨k, hk, hboard⟩
  refine ⟨fun n hn hle => ?_, ?_, fun a b ha hb _ hnext => ?_⟩
  · have hk : n - 1 < path.length := by omega
    have hget := List.getElem?_eq_getElem hk
    refine ⟨convertIndexToSquare path[n - 1],
      ⟨onBoard_convertIndexToSquare (h.lt _ (List.getElem_mem hk)), ?_⟩, ?_⟩
    · rw [h.board (n - 1) _ hget]
      omega
    · intro other hother hnumber
      obtain ⟨k, hpath, hboard⟩ := hcover other hother
      obtain rfl : k = n - 1 := by omega
      rw [hget, Option.some.injEq] at hpath
      rw [hpath, (convertSquareToIndex_spec hother).2]
  · rw [List.head?_eq_getElem?] at hhead
    have hboard := h.board 0 _ hhead
    rwa [(convertSquareToIndex_spec hstart).2] at hboard
  · obtain ⟨k, hka, hboarda⟩ := hcover a ha
    obtain ⟨l, hkb, hboardb⟩ := hcover b hb
    obtain rfl : l = k + 1 := by omega
    obtain ⟨hnextLt, hnextGet⟩ := List.getElem?_eq_some_iff.mp hkb
    obtain ⟨_, hget⟩ := List.getElem?_eq_some_iff.mp hka
    have hstep := h.chain.getElem k hnextLt
    rw [hget, hnextGet] at hstep
    unfold KnightStep at hstep
    rwa [(convertSquareToIndex_spec ha).2, (convertSquareToIndex_spec hb).2] at hstep

/-- The search starts with its first square. -/
theorem follows_start (board : Board) {start : Square} (hstart : OnBoard start) :
    Search.Follows
      { board := board.put start 1
        visited := BitArr.setOn 0 (convertSquareToIndex start)
        ticks := 0 } [convertSquareToIndex start] := by
  obtain ⟨hlt, hinverse⟩ := convertSquareToIndex_spec hstart
  refine ⟨.singleton _, List.nodup_singleton _, by simpa using hlt, fun i hi => ?_,
    fun k i hk => ?_⟩
  · show (BitArr.setOn 0 (convertSquareToIndex start)).getBit i = _
    rw [BitArr.getBit_setOn hi]
    simp [BitArr.getBit]
  · have hlength := (List.getElem?_eq_some_iff.mp hk).1
    obtain rfl : k = 0 := by simpa using hlength
    obtain rfl : convertSquareToIndex start = i := by simpa using hk
    rw [hinverse]
    exact Board.put_same _ _ _

/-- `KnightTour` always answers. -/
theorem exists_knightTour (clock : Nat → Nat) (board : Board) (start : Square) (h : Bool) :
    ∃ status board', knightTour clock board start h = some (status, board') ∧
      (status = .success → IsTour board' start) := by
  unfold knightTour
  by_cases hvalid : isValidPosition start.row start.column = true
  case neg =>
    rw [if_neg hvalid]
    exact ⟨.fail, board, rfl, by rintro ⟨⟩⟩
  case pos =>
    have hstart : OnBoard start := by simpa [isValidPosition, OnBoard] using hvalid
    have hanswers : Answers [convertSquareToIndex start] (knightTourRecursive clock h
        NUM_OF_SQUARES
        { board := board.put start 1
          visited := BitArr.setOn 0 (convertSquareToIndex start)
          ticks := 0 } (convertSquareToIndex start) 2) :=
      knightTourRecursive_answers clock h (follows_start board hstart) rfl (by simp)
    obtain ⟨status, s, hresult, hsuccess, -⟩ := hanswers
    rw [if_pos hvalid]
    dsimp only
    refine ⟨status, s.board, ?_, fun hstatus => ?_⟩
    · rw [hresult]
      rfl
    · obtain ⟨rest, hfollows, hlength⟩ := hsuccess hstatus
      exact hfollows.isTour hlength hstart rfl

/-- A board reported as a success shows a tour from the start square. -/
theorem knightTour_isTour {clock : Nat → Nat} {board board' : Board} {start : Square} {h : Bool}
    (hsuccess : knightTour clock board start h = some (.success, board')) :
    IsTour board' start := by
  obtain ⟨status, b, hresult, htour⟩ := exists_knightTour clock board start h
  rw [hsuccess] at hresult
  cases hresult
  exact htour rfl

/-- The heuristic finds a tour from the corner of an empty board at once. -/
theorem knightTour_corner :
    (knightTour (fun _ => 0) (fun _ _ => 0) ⟨0, 0⟩ true).map Prod.fst = some .success := by
  decide +kernel

theorem knightTour_corner_isTour : ∃ board',
    knightTour (fun _ => 0) (fun _ _ => 0) ⟨0, 0⟩ true = some (.success, board') ∧
      IsTour board' ⟨0, 0⟩ := by
  obtain ⟨⟨status, board'⟩, hrun, hstatus⟩ := Option.map_eq_some_iff.mp knightTour_corner
  obtain rfl : status = .success := hstatus
  exact ⟨board', hrun, knightTour_isTour hrun⟩

end Knight
end InfinityLabs
