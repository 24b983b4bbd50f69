import InfinityLabs.Lib.Buckets
import InfinityLabs.Lib.CInts
import Mathlib.Data.List.Induction

/-!
# Sorting by counts

`projects/sorting/src/linear_sorting.c`: `CountingSort` and the passes of `RadixSort` count the keys
of the elements, sum the counts up and place the elements from the last to the first.
-/

namespace InfinityLabs
namespace Sorting

open Lib

/-- The counts, the output, and the slots of it that have been written, the last one first. -/
structure Placement where
  countArr : List Int
  outPut : List (Option Int)
  slots : List Nat

/-- `++count_arr[key]`. -/
def countStep (key : Int → Except Trap Int) (countArr : List Int) (x : Int) :
    Except Trap (List Int) := do
  let k ← key x
  let count ← readAt countArr k
  let count ← toInt (count + 1)
  writeAt countArr k count

/-- The keys of all elements are counted. -/
def countKeys (key : Int → Except Trap Int) (arr : List Int) (countArr : List Int) :
    Except Trap (List Int) :=
  arr.foldlM (countStep key) countArr

/-- `count_arr[i] += count_arr[i - 1]`. -/
def sumStep (countArr : List Int) (i : Nat) : Except Trap (List Int) := do
  let count ← readAt countArr i
  let before ← readAt countArr (i - 1)
  let count ← toInt (count + before)
  writeAt countArr i count

/-- The counts are summed up, from 1 up to the range. -/
def sumCounts (range : Nat) (countArr : List Int) : Except Trap (List Int) :=
  (List.range' 1 (range - 1)).foldlM sumStep countArr

/-- `out_put[--count_arr[key]] = arr[i - 1]`. -/
def placeStep (key : Int → Except Trap Int) (p : Placement) (x : Int) : Except Trap Placement := do
  let k ← key x
  let count ← readAt p.countArr k
  let count ← toInt (count - 1)
  let countArr ← writeAt p.countArr k count
  let outPut ← writeAt p.outPut count (some x)
  .ok { countArr, outPut, slots := count.toNat :: p.slots }

/-- The elements are placed, from the last to the first. -/
def placeElements (key : Int → Except Trap Int) (arr : List Int) (p : Placement) :
    Except Trap Placement :=
  arr.reverse.foldlM (placeStep key) p

/-- `arr[i] = out_put[i]` for every slot. -/
def copyBack (outPut : List (Option Int)) : Except Trap (List Int) :=
  outPut.mapM fun slot =>
    match slot with
    | none => .error .uninitialized
    | some x => .ok x

/-- The loops behind the allocations, with the array that they leave and the slots in which they
have put the elements. -/
def sortByKey (key : Int → Except Trap Int) (range : Nat) (arr : List Int) :
    Except Trap (List Int × List Nat) := do
  let countArr ← countKeys key arr (List.replicate range 0)
  let countArr ← sumCounts range countArr
  let p ← placeElements key arr
    { countArr, outPut := List.replicate arr.length none, slots := [] }
  let arr ← copyBack p.outPut
  .ok (arr, p.slots)

/-! ## The loops -/

variable {key : Int → Except Trap Int} {κ : Int → Nat} {arr pre suf : List Int} {r : Nat}

/-- Every element has a key below the range. -/
def HasKeys (key : Int → Except Trap Int) (κ : Int → Nat) (r : Nat) (arr : List Int) : Prop :=
  ∀ x ∈ arr, key x = .ok (κ x) ∧ κ x < r

/-- The counts of the keys, where they fit. -/
theorem countKeys_eq (pre : List Int) (h : HasKeys key κ r suf) :
    countKeys key suf (table r fun k => ((bucket κ pre k).length : Int)) =
        .ok (table r fun k => ((bucket κ (pre ++ suf) k).length : Int)) ∨
      2 ^ 31 ≤ (pre ++ suf).length ∧ ∃ t,
        countKeys key suf (table r fun k => ((bucket κ pre k).length : Int)) = .error t := by
  induction suf generalizing pre with
  | nil =>
      rw [List.append_nil]
      exact Or.inl rfl
  | cons x suf ih =>
      obtain ⟨⟨hkey, hlt⟩, hrest⟩ := List.forall_mem_cons.mp h
      have hcount : ((bucket κ (pre ++ [x]) (κ x)).length : Int) =
          (bucket κ pre (κ x)).length + 1 := by
        rw [bucket_append, bucket_singleton_self, List.length_append, List.length_singleton]
        rfl
      have hstep : countKeys key (x :: suf) (table r fun k => ((bucket κ pre k).length : Int)) =
          toInt (bucket κ (pre ++ [x]) (κ x)).length >>= fun count =>
            countKeys key suf (table r
              (Function.update (fun k => ((bucket κ pre k).length : Int)) (κ x) count)) := by
        simp only [countKeys, List.foldlM_cons, countStep, hkey, readAt_table hlt, trap_ok_bind,
          hcount]
        cases toInt ((bucket κ pre (κ x)).length + 1 : Int) with
        | error t => simp only [trap_error_bind]
        | ok count => simp only [trap_ok_bind, writeAt_table hlt]
      rw [hstep]
      by_cases hfits : (bucket κ (pre ++ [x]) (κ x)).length < 2 ^ 31
      case pos =>
        have htable : table r (Function.update (fun k => ((bucket κ pre k).length : Int)) (κ x)
            (bucket κ (pre ++ [x]) (κ x)).length) =
              table r fun k => ((bucket κ (pre ++ [x]) k).length : Int) := by
          refine table_congr fun k _ => ?_
          by_cases hk : k = κ x
          case pos => rw [hk, Function.update_self]
          case neg =>
            rw [Function.update_of_ne hk, bucket_append, bucket_singleton_of_ne hk, List.append_nil]
        rw [toInt_of_isInt (isInt_natCast.mpr hfits), trap_ok_bind, htable,
          List.append_cons pre x suf]
        exact ih _ hrest
      case neg =>
        refine Or.inr ⟨?_, .overflow, ?_⟩
        · have hle : (bucket κ (pre ++ [x]) (κ x)).length ≤ (pre ++ [x]).length := length_bucket_le
          simp only [List.length_append, List.length_cons, List.length_nil] at hle hfits ⊢
          omega
        · rw [toInt_of_not_isInt (mt isInt_natCast.mp hfits), trap_error_bind]

/-- The counts where those below `i` have been summed up. -/
def summed (κ : Int → Nat) (l : List Int) (r i : Nat) : List Int :=
  table r fun k => if k < i then (offset κ l (k + 1) : Int) else (bucket κ l k).length

/-- The next count is summed up, where it fits. -/
theorem sumStep_eq {l : List Int} {i : Nat} (hi : 0 < i) (hlt : i < r) :
    sumStep (summed κ l r i) i =
      toInt (offset κ l (i + 1)) >>= fun _ => .ok (summed κ l r (i + 1)) := by
  have hread : readAt (summed κ l r i) i = .ok ((bucket κ l i).length : Int) := by
    rw [summed, readAt_table hlt, if_neg (Nat.lt_irrefl i)]
  have hbefore : readAt (summed κ l r i) (i - 1) = .ok (offset κ l i : Int) := by
    have hcast : (i : Int) - 1 = ((i - 1 : Nat) : Int) := by omega
    rw [summed, hcast, readAt_table (by omega), if_pos (by omega), Nat.sub_add_cancel hi]
  have hsum : ((bucket κ l i).length : Int) + offset κ l i = offset κ l (i + 1) := by
    rw [offset_succ]
    omega
  rw [sumStep, hread, trap_ok_bind, hbefore, trap_ok_bind, hsum]
  by_cases hfits : IsInt (offset κ l (i + 1))
  case neg => rw [toInt_of_not_isInt hfits, trap_error_bind, trap_error_bind]
  case pos =>
    rw [toInt_of_isInt hfits, trap_ok_bind, trap_ok_bind, summed, writeAt_table hlt]
    refine congrArg _ (table_congr fun k _ => ?_)
    by_cases hk : k = i
    case pos => rw [hk, Function.update_self, if_pos (Nat.lt_succ_self i)]
    case neg =>
      have hiff : k < i ↔ k < i + 1 := by omega
      simp only [Function.update_of_ne hk, hiff]

/-- `sumCounts` from a place on, where the sums fit. -/
theorem sumStep_foldlM (κ : Int → Nat) (l : List Int) {i n : Nat} (hi : 0 < i) (hn : i + n ≤ r) :
    ((List.range' i n).foldlM sumStep (summed κ l r i) = .ok (summed κ l r (i + n)) ∧
        (0 < n → offset κ l (i + n) < 2 ^ 31)) ∨
      2 ^ 31 ≤ l.length ∧ ∃ t, (List.range' i n).foldlM sumStep (summed κ l r i) = .error t := by
  induction n generalizing i with
  | zero => exact Or.inl ⟨rfl, fun h => absurd h (Nat.lt_irrefl 0)⟩
  | succ n ih =>
      rw [List.range'_succ, List.foldlM_cons, sumStep_eq hi (by omega)]
      by_cases hfits : offset κ l (i + 1) < 2 ^ 31
      case pos =>
        rw [toInt_of_isInt (isInt_natCast.mpr hfits), trap_ok_bind, trap_ok_bind]
        have hplace : i + 1 + n = i + (n + 1) := by omega
        rcases ih (Nat.succ_pos i) (by omega : i + 1 + n ≤ r) with ⟨hloop, hlast⟩ | herror
        · rw [hplace] at hloop hlast
          refine Or.inl ⟨hloop, fun _ => ?_⟩
          rcases Nat.eq_zero_or_pos n with rfl | hpos
          · exact hfits
          · exact hlast hpos
        · exact Or.inr herror
      case neg =>
        have hle : offset κ l (i + 1) ≤ l.length := offset_le_length
        refine Or.inr ⟨by omega, .overflow, ?_⟩
        rw [toInt_of_not_isInt (mt isInt_natCast.mp hfits), trap_error_bind, trap_error_bind]

/-- The elements of `suf` have been placed. -/
def placement (κ : Int → Nat) (pre suf : List Int) (r : Nat) : Placement where
  countArr := table r fun k => ((offset κ (pre ++ suf) k + (bucket κ pre k).length : Nat) : Int)
  outPut := placed κ pre suf r
  slots := slotsFrom κ (pre ++ suf) pre suf

/-- The next element goes to its slot. -/
theorem placeStep_eq {x : Int} (hkey : key x = .ok (κ x)) (hlt : κ x < r)
    (hfits : (pre ++ x :: suf).length < 2 ^ 31) :
    placeStep key (placement κ (pre ++ [x]) suf r) x = .ok (placement κ pre (x :: suf) r) := by
  obtain ⟨l₁, l₂, hbefore, hafter, hlength⟩ := exists_placed_split pre suf hlt
  have hassoc : pre ++ [x] ++ suf = pre ++ x :: suf := by
    rw [List.append_assoc, List.singleton_append]
  have hcount : ((offset κ (pre ++ x :: suf) (κ x) +
      (bucket κ (pre ++ [x]) (κ x)).length : Nat) : Int) - 1 = (l₁.length : Nat) := by
    rw [hlength, bucket_append, bucket_singleton_self, List.length_append, List.length_singleton]
    omega
  have hinside : l₁.length < 2 ^ 31 := by
    have hslots : (placed κ pre (x :: suf) r).length ≤ (pre ++ x :: suf).length := by
      rw [length_placed]
      exact offset_le_length
    rw [hafter, List.length_append, List.length_cons] at hslots
    omega
  have htable : table r (Function.update (fun k => ((offset κ (pre ++ x :: suf) k +
      (bucket κ (pre ++ [x]) k).length : Nat) : Int)) (κ x) (l₁.length : Nat)) =
        table r fun k => ((offset κ (pre ++ x :: suf) k + (bucket κ pre k).length : Nat) : Int) := by
    refine table_congr fun k _ => ?_
    by_cases hk : k = κ x
    case pos => rw [hk, Function.update_self, hlength]
    case neg =>
      rw [Function.update_of_ne hk, bucket_append, bucket_singleton_of_ne hk, List.append_nil]
  have hwrite : writeAt (l₁ ++ none :: l₂) (l₁.length : Nat) (some x) =
      .ok (l₁ ++ some x :: l₂) := by
    rw [writeAt_of_lt (by simp), set_split]
  simp only [placeStep, placement, hassoc, hkey, trap_ok_bind, readAt_table hlt, hcount,
    toInt_of_isInt (isInt_natCast.mpr hinside), writeAt_table hlt, htable, hbefore, hwrite, hafter,
    Int.toNat_natCast, slotsFrom, ← hlength]

/-- The elements are placed, where their number fits. -/
theorem placeElements_eq (suf : List Int) (h : HasKeys key κ r pre)
    (hfits : (pre ++ suf).length < 2 ^ 31) :
    placeElements key pre (placement κ pre suf r) = .ok (placement κ [] (pre ++ suf) r) := by
  induction pre using List.reverseRecOn generalizing suf with
  | nil => rfl
  | append_singleton pre x ih =>
      obtain ⟨hpre, hx⟩ := List.forall_mem_append.mp h
      obtain ⟨hkey, hlt⟩ := hx x (List.mem_singleton_self x)
      rw [List.append_assoc, List.singleton_append] at hfits ⊢
      rw [placeElements, List.reverse_append, List.reverse_singleton, List.singleton_append,
        List.foldlM_cons, placeStep_eq hkey hlt hfits, trap_ok_bind]
      exact ih _ hpre hfits

/-- Slots that are all written are read. -/
theorem copyBack_map_some (l : List Int) : copyBack (l.map some) = .ok l := by
  induction l with
  | nil => rfl
  | cons x l ih =>
      rw [copyBack] at ih ⊢
      rw [List.map_cons, List.mapM_cons, trap_ok_bind, ih, trap_ok_bind]
      rfl

/-- At first no key has been counted. -/
theorem replicate_eq_table (r : Nat) :
    List.replicate r (0 : Int) = table r fun k => ((bucket κ [] k).length : Int) := by
  refine (List.eq_replicate_iff.mpr ⟨?_, fun a ha => ?_⟩).symm
  · rw [table, List.length_map, List.length_range]
  · obtain ⟨k, -, rfl⟩ := List.mem_map.mp ha
    rfl

/-- No element has a lower key than 0, so the sums begin at 1. -/
theorem summed_one (l : List Int) (r : Nat) :
    summed κ l r 1 = table r fun k => ((bucket κ l k).length : Int) := by
  refine table_congr fun k _ => ?_
  by_cases hk : k < 1
  case pos =>
    obtain rfl : k = 0 := by omega
    have hzero : offset κ l 0 = 0 := by simp [offset]
    rw [if_pos hk, offset_succ, hzero, Nat.zero_add]
  case neg => rw [if_neg hk]

/-- When all counts are summed up, no element has been placed. -/
theorem summed_eq_placement (h : HasKeys key κ r arr) :
    Placement.mk (summed κ arr r r) (List.replicate arr.length none) [] =
      placement κ arr [] r := by
  have hkeys : ∀ x ∈ arr, κ x < r := fun x hx => (h x hx).2
  have htable : summed κ arr r r =
      table r fun k => ((offset κ arr k + (bucket κ arr k).length : Nat) : Int) :=
    table_congr fun k hk => by rw [if_pos hk, offset_succ]
  rw [placement, List.append_nil, placed_nil_right hkeys, htable]
  rfl

/-- The loops put the buckets into the array, each element into its slot. -/
theorem sortByKey_eq (h : HasKeys key κ r arr) (hr : 0 < r) (hfits : arr.length < 2 ^ 31) :
    sortByKey key r arr = .ok (buckets κ arr r, slots κ arr) := by
  have hcounts : countKeys key arr (List.replicate r 0) =
      .ok (table r fun k => ((bucket κ arr k).length : Int)) := by
    rw [replicate_eq_table]
    exact (countKeys_eq [] h).resolve_right fun herror => absurd herror.1 (Nat.not_le.mpr hfits)
  have hsums : sumCounts r (table r fun k => ((bucket κ arr k).length : Int)) =
      .ok (summed κ arr r r) := by
    have hplace : 1 + (r - 1) = r := by omega
    rw [sumCounts, ← summed_one]
    rcases sumStep_foldlM κ arr Nat.one_pos (Nat.le_of_eq hplace) with hloop | herror
    · rw [hloop.1, hplace]
    · exact absurd herror.1 (Nat.not_le.mpr hfits)
  have hplaced : placeElements key arr (placement κ arr [] r) = .ok (placement κ [] arr r) := by
    have hloop := placeElements_eq [] h (by rwa [List.append_nil])
    rwa [List.append_nil] at hloop
  have hcopied : copyBack (placement κ [] arr r).outPut = .ok (buckets κ arr r) := by
    rw [placement, placed_nil_left, copyBack_map_some]
  rw [sortByKey, hcounts, trap_ok_bind, hsums, trap_ok_bind, summed_eq_placement h, hplaced,
    trap_ok_bind, hcopied, trap_ok_bind]
  rfl

/-- With more than one key the last sum is the number of the elements. -/
theorem sortByKey_error (h : HasKeys key κ r arr) (hr : 1 < r) (hlong : 2 ^ 31 ≤ arr.length) :
    ∃ t, sortByKey key r arr = .error t := by
  rcases countKeys_eq [] h with hcounts | ⟨-, t, hcounts⟩
  case inr => exact ⟨t, by rw [sortByKey, replicate_eq_table, hcounts, trap_error_bind]⟩
  case inl =>
    have hplace : 1 + (r - 1) = r := by omega
    rw [List.nil_append, ← summed_one arr] at hcounts
    rcases sumStep_foldlM κ arr Nat.one_pos (Nat.le_of_eq hplace) with
      ⟨-, hlast⟩ | ⟨-, t, hsums⟩
    · have hall := hlast (by omega)
      rw [hplace, offset_eq_length fun x hx => (h x hx).2] at hall
      omega
    · exact ⟨t, by
        rw [sortByKey, replicate_eq_table r, hcounts, trap_ok_bind, sumCounts, hsums,
          trap_error_bind]⟩

end Sorting
end InfinityLabs
