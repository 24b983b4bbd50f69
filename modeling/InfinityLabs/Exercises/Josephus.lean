import InfinityLabs.Lib.CInts
import InfinityLabs.Lib.Circle

/-!
# The soldiers in a circle

`JosephusWithArray` of `c/ws3/ex2.c`.  The living soldiers stand at the front of an array, in the
order of the circle.  Whoever is killed is taken out by moving the ones behind him up, and the
sword goes to his place; that may be one behind the last soldier, and then it is the first one's.
-/

namespace InfinityLabs
namespace Exercises
namespace Josephus

open Lib

/-! ## The code -/

/-- `arr[i]`, where it has been written. -/
def readSet (arr : List (Option Int)) (i : Nat) : Except Trap Int := do
  match ← readAt arr i with
  | none => .error .uninitialized
  | some x => .ok x

/-- `for (; i < end; ++i) arr[i] = i + 1`, `count` times. -/
def fillLoop : Nat → Nat → List (Option Int) → Except Trap (List (Option Int))
  | 0, _, arr => .ok arr
  | count + 1, i, arr => do
      let arr ← writeAt arr i (some (castInt (i + 1 : Nat)))
      fillLoop count (i + 1) arr

/-- `for (; i < end; ++i) arr[i] = arr[i + 1]`, `count` times. -/
def deleteLoop : Nat → Nat → List (Option Int) → Except Trap (List (Option Int))
  | 0, _, arr => .ok arr
  | count + 1, i, arr => do
      let arr ← writeAt arr i (some (← readSet arr (i + 1)))
      deleteLoop count (i + 1) arr

/-- The loop over the soldiers that are alive. -/
def circleLoop : Nat → Nat → List (Option Int) → Except Trap (List (Option Int))
  | 0, _, arr => .ok arr
  | 1, _, arr => .ok arr
  | soldiersAlive + 2, swordHolder, arr => do
      let nextVictim := (swordHolder + 1) % (soldiersAlive + 2)
      let arr ← deleteLoop (soldiersAlive + 2 - 1 - nextVictim) nextVictim arr
      circleLoop (soldiersAlive + 1) nextVictim arr

/-- `JosephusWithArray`; `allocated` says whether `malloc` finds memory. -/
def josephusWithArray (allocated : Bool) (soldiersCount : Nat) : Except Trap Int := do
  if allocated then
    let arr := List.replicate (soldiersCount * 4 % 2 ^ 64 / 4) none
    let arr ← fillLoop soldiersCount 0 arr
    let arr ← circleLoop soldiersCount 0 arr
    let i := toSize (← readSet arr 0)
    pure (castInt i)
  else
    pure (-1)

/-! ## Filling -/

/-- The numbers of some soldiers. -/
def numbers (first count : Nat) : List Int := (List.range' first count).map fun i : Nat => (i : Int)

theorem fillLoop_eq {count i : Nat} {l : List (Option Int)} (hi : i = l.length)
    (hint : i + count < 2 ^ 31) :
    fillLoop count i (l ++ List.replicate count none) =
      .ok (l ++ (numbers (i + 1) count).map some) := by
  induction count generalizing i l with
  | zero => rfl
  | succ count ih =>
      have hnext := @ih (i + 1) (l ++ [some ((i + 1 : Nat) : Int)]) (by simp [hi]) (by omega)
      rw [List.replicate_succ, fillLoop, writeAt_split none _ hi, trap_ok_bind,
        castInt_natCast (by omega), List.append_cons, hnext, numbers, numbers, List.range'_succ]
      simp

/-! ## The circle -/

/-- The soldiers behind the victim move up. -/
theorem deleteLoop_eq {A B : List Int} (y : Int) (junk : List (Option Int)) {i : Nat}
    (hi : i = A.length) :
    ∃ z, deleteLoop B.length i (A.map some ++ some y :: (B.map some ++ junk)) =
      .ok (A.map some ++ (B.map some ++ z :: junk)) := by
  induction B generalizing A y i with
  | nil => exact ⟨some y, rfl⟩
  | cons b B ih =>
      obtain ⟨z, hz⟩ := @ih (A ++ [b]) b (i + 1) (by simp [hi])
      refine ⟨z, ?_⟩
      have hread : readSet (A.map some ++ some y :: some b :: (B.map some ++ junk)) (i + 1) =
          .ok b := by
        rw [readSet, List.append_cons, readAt_split (some b) (by simp [hi])]
        rfl
      rw [List.map_append, List.map_singleton, List.append_assoc, List.append_assoc,
        List.singleton_append, List.singleton_append] at hz
      rw [List.length_cons, List.map_cons, List.cons_append, deleteLoop, hread, trap_ok_bind,
        writeAt_split (some y) _ (by simp [hi]), trap_ok_bind, hz, List.cons_append]

/-- The victim is taken out. -/
theorem deleteLoop_eraseIdx {living : List Int} (junk : List (Option Int)) {i : Nat}
    (hi : i < living.length) :
    ∃ z, deleteLoop (living.length - 1 - i) i (living.map some ++ junk) =
      .ok ((living.eraseIdx i).map some ++ z :: junk) := by
  have hfront : i = (living.take i).length := by rw [List.length_take]; omega
  have hbehind : living.length - 1 - i = (living.drop (i + 1)).length := by
    rw [List.length_drop]
    omega
  have hsplit : living = living.take i ++ living[i] :: living.drop (i + 1) := by
    rw [← List.drop_eq_getElem_cons, List.take_append_drop]
  obtain ⟨z, hz⟩ := @deleteLoop_eq (living.take i) (living.drop (i + 1)) living[i] junk i hfront
  refine ⟨z, ?_⟩
  have hcells : living.map some ++ junk = (living.take i).map some ++
      some living[i] :: ((living.drop (i + 1)).map some ++ junk) := by
    conv_lhs => rw [hsplit]
    rw [List.map_append, List.map_cons, List.append_assoc, List.cons_append]
  rw [hbehind, hcells, hz, List.eraseIdx_eq_take_drop_succ, List.map_append, List.append_assoc]

/-- **The loop** leaves the survivor of the circle at the first place. -/
theorem circleLoop_eq {soldiersAlive : Nat} (swordHolder : Nat) {living : List Int}
    (junk : List (Option Int)) (hlength : living.length = soldiersAlive)
    (hpos : 0 < soldiersAlive) :
    ∃ x arr, circleLoop soldiersAlive swordHolder (living.map some ++ junk) =
        .ok (some x :: arr) ∧ x ∈ living ∧ survivor (living.rotate swordHolder) = some x := by
  induction soldiersAlive generalizing swordHolder living junk with
  | zero => omega
  | succ soldiersAlive ih =>
      cases soldiersAlive with
      | zero =>
          obtain ⟨x, rfl⟩ := List.length_eq_one_iff.mp hlength
          refine ⟨x, junk, rfl, List.mem_singleton_self x, ?_⟩
          rw [List.rotate_singleton, survivor]
      | succ soldiersAlive =>
          have hvictim : (swordHolder + 1) % living.length < living.length :=
            Nat.mod_lt _ (by omega)
          have herase : (living.eraseIdx ((swordHolder + 1) % living.length)).length =
              soldiersAlive + 1 := by
            rw [List.length_eraseIdx_of_lt hvictim, hlength]
            rfl
          obtain ⟨z, hdelete⟩ := deleteLoop_eraseIdx junk hvictim
          obtain ⟨x, arr, hloop, hmem, hsurvivor⟩ :=
            ih ((swordHolder + 1) % living.length) (z :: junk) herase (Nat.succ_pos _)
          refine ⟨x, arr, ?_, List.mem_of_mem_eraseIdx hmem, ?_⟩
          · rw [hlength] at hdelete hloop
            rw [circleLoop, hdelete, trap_ok_bind, hloop]
          · rwa [survivor_rotate (by omega)] at hsurvivor

/-- **`JosephusWithArray`** names the survivor of the circle, which is at twice the distance of the
number to the largest power of two not above it. -/
theorem josephusWithArray_eq {n k : Nat} (hlow : 2 ^ k ≤ n) (hhigh : n < 2 ^ (k + 1))
    (hint : n < 2 ^ 31) :
    josephusWithArray true n = .ok ((2 * (n - 2 ^ k) + 1 : Nat) : Int) ∧
      survivor (numbers 1 n) = some ((2 * (n - 2 ^ k) + 1 : Nat) : Int) := by
  have hpos : 0 < n := Nat.lt_of_lt_of_le (Nat.two_pow_pos k) hlow
  have hlength : (numbers 1 n).length = n := by simp [numbers]
  have hplace : survivor (numbers 1 n) = some ((2 * (n - 2 ^ k) + 1 : Nat) : Int) := by
    rw [Nat.pow_succ] at hhigh
    have hget : (numbers 1 n)[2 * (n - 2 ^ k)]? = some ((1 + 2 * (n - 2 ^ k) : Nat) : Int) := by
      rw [numbers, List.getElem?_map, List.getElem?_range' (by omega)]
      simp
    rw [survivor_eq (show (numbers 1 n).length = 2 ^ k + (n - 2 ^ k) by omega) (by omega), hget,
      Nat.add_comm]
  refine ⟨?_, hplace⟩
  obtain ⟨x, arr, hloop, hmem, hsurvivor⟩ := circleLoop_eq 0 [] hlength hpos
  rw [List.rotate_zero, hplace, Option.some.injEq] at hsurvivor
  rw [List.append_nil] at hloop
  have hcells : n * 4 % 2 ^ 64 / 4 = n := by omega
  have hfill := @fillLoop_eq n 0 [] rfl (by omega)
  rw [List.nil_append, List.nil_append] at hfill
  have hread : readSet (some x :: arr) 0 = .ok x := rfl
  have hback : castInt (toSize x : Int) = x := by
    have hsize : toSize x = 2 * (n - 2 ^ k) + 1 := by
      rw [← hsurvivor, toSize]
      omega
    rw [hsize, castInt_natCast (by rw [Nat.pow_succ] at hhigh; omega), hsurvivor]
  simp only [josephusWithArray, if_true, hcells, hfill, trap_ok_bind, hloop, hread, hback]
  rw [hsurvivor]
  rfl

/-- The number of soldiers in `main`. -/
theorem josephusWithArray_hundred :
    josephusWithArray true 100 = .ok ((2 * (100 - 2 ^ 6) + 1 : Nat) : Int) ∧
      survivor (numbers 1 100) = some ((2 * (100 - 2 ^ 6) + 1 : Nat) : Int) :=
  josephusWithArray_eq (by decide) (by decide) (by decide)

end Josephus
end Exercises
end InfinityLabs
