import InfinityLabs.Lib.DecimalText
import InfinityLabs.Lib.OrderedMap
import InfinityLabs.Server.JsString
import Mathlib.Data.List.Induction
import Mathlib.Data.List.Sort

/-!
# The monthly chart

`mergeMonthlyData` of `chartUtils.ts` joins what was spent and what was received by
month.  The months are keys of a map, written `year-month`; the entries are sorted by the
numbers that are read back from the keys.

Amounts are of any type with a zero; years and months are natural numbers.
-/

namespace InfinityLabs
namespace Client

open Lib Server

/-! ## The source -/

/-- `MonthlySpending`. -/
structure MonthlySpending (M : Type) where
  year : Nat
  month : Nat
  totalSpent : M
  transactionCount : Nat

/-- `MonthlyReceived`. -/
structure MonthlyReceived (M : Type) where
  year : Nat
  month : Nat
  totalReceived : M
  transactionCount : Nat

/-- `ChartDataPoint`. -/
structure ChartDataPoint (M : Type) where
  label : JsString
  spent : M
  received : M
  deriving DecidableEq

/-- `MONTH_LABELS`. -/
def MONTH_LABELS : List JsString :=
  ["Jan", "Feb", "Mar", "Apr", "May", "Jun", "Jul", "Aug", "Sep", "Oct", "Nov", "Dec"].map js

/-- `MONTH_LABELS[month - 1]` in a template. -/
def monthLabel : Nat → JsString
  | 0 => js "undefined"
  | index + 1 => (MONTH_LABELS[index]?).getD (js "undefined")

/-- The key of a month. -/
def chartKey (year month : Nat) : JsString :=
  decimalText year ++ js "-" ++ decimalText month

/-- The label of a month. -/
def chartLabel (year month : Nat) : JsString :=
  monthLabel month ++ js " " ++ decimalText year

/-- `key.split('-').map(Number)`, the first two; `none` for `undefined` and `NaN`. -/
def keyNumbers (key : JsString) : Option Nat × Option Nat :=
  let parts := (key.splitOn 0x2d).map readDecimal
  ((parts[0]?).join, (parts[1]?).join)

/-- The comparison that the entries are sorted by; `NaN` counts as zero. -/
def compareKeys (a b : JsString) : Int :=
  match (keyNumbers a).1, (keyNumbers b).1 with
  | some ay, some byear =>
      if ay ≠ byear then (ay : Int) - byear
      else match (keyNumbers a).2, (keyNumbers b).2 with
        | some am, some bm => (am : Int) - bm
        | _, _ => 0
  | _, _ => 0

section

variable {M : Type} [Zero M]

/-- A round of the first loop. -/
def addSpending (map : OrderedMap JsString (ChartDataPoint M)) (s : MonthlySpending M) :
    OrderedMap JsString (ChartDataPoint M) :=
  map.set (chartKey s.year s.month) ⟨chartLabel s.year s.month, s.totalSpent, 0⟩

/-- A round of the second loop. -/
def addReceived (map : OrderedMap JsString (ChartDataPoint M)) (r : MonthlyReceived M) :
    OrderedMap JsString (ChartDataPoint M) :=
  match map.get (chartKey r.year r.month) with
  | some _ =>
      map.update (chartKey r.year r.month) fun existing =>
        { existing with received := r.totalReceived }
  | none =>
      map.set (chartKey r.year r.month) ⟨chartLabel r.year r.month, 0, r.totalReceived⟩

/-- `mergeMonthlyData`. -/
def mergeMonthlyData (spending : List (MonthlySpending M)) (received : List (MonthlyReceived M)) :
    List (ChartDataPoint M) :=
  let map := received.foldl addReceived (spending.foldl addSpending [])
  (map.mergeSort fun a b => compareKeys a.1 b.1 ≤ 0).map Prod.snd

/-! ## Months -/

/-- A year and a month of it. -/
abbrev YearMonth := Nat × Nat

/-- The month of a row. -/
def MonthlySpending.yearMonth (s : MonthlySpending M) : YearMonth := (s.year, s.month)

/-- The month of a row. -/
def MonthlyReceived.yearMonth (r : MonthlyReceived M) : YearMonth := (r.year, r.month)

end

/-- The chronological order. -/
def Before (a b : YearMonth) : Prop := a.1 < b.1 ∨ a.1 = b.1 ∧ a.2 < b.2

/-- The key of a month as a pair. -/
def keyOf (ym : YearMonth) : JsString := chartKey ym.1 ym.2

/-- A decimal text has no dash. -/
theorem dash_not_mem_decimalText (n : Nat) : 0x2d ∉ decimalText n := fun hmem => by
  have hdecimal := isDecimal_of_mem_decimalText hmem
  revert hdecimal
  decide

/-- **The year and the month are read back from the key.** -/
theorem keyNumbers_keyOf (ym : YearMonth) : keyNumbers (keyOf ym) = (some ym.1, some ym.2) := by
  have hsplit : (keyOf ym).splitOn 0x2d = [decimalText ym.1, decimalText ym.2] := by
    have hkey : keyOf ym = decimalText ym.1 ++ 0x2d :: decimalText ym.2 := by
      rw [keyOf, chartKey, List.append_assoc]
      rfl
    rw [hkey, List.splitOn_append_cons_self_of_not_mem (dash_not_mem_decimalText _),
      List.splitOn_eq_singleton (dash_not_mem_decimalText _)]
  rw [keyNumbers, hsplit]
  simp [readDecimal_decimalText]

/-- Different months have different keys. -/
theorem keyOf_injective : Function.Injective keyOf := by
  intro a b hkey
  have hnumbers := congrArg keyNumbers hkey
  rw [keyNumbers_keyOf, keyNumbers_keyOf] at hnumbers
  simpa [Prod.ext_iff] using hnumbers

/-- The keys are compared as their months are. -/
theorem compareKeys_keyOf (a b : YearMonth) :
    compareKeys (keyOf a) (keyOf b) ≤ 0 ↔ ¬ Before b a := by
  rw [compareKeys, keyNumbers_keyOf, keyNumbers_keyOf]
  simp only [Before, ne_eq]
  split <;> omega

/-! ## Amounts by month -/

section

variable {M β : Type} [Zero M] (month : β → YearMonth) (amount : β → M)

/-- The amount that a list has for a month, 0 if it has none. -/
def amountIn (rows : List β) (ym : YearMonth) : M :=
  ((rows.find? fun row => month row = ym).map amount).getD 0

variable {month amount}

/-- A month that does not occur has no amount. -/
theorem amountIn_of_not_mem {rows : List β} {ym : YearMonth} (hnew : ym ∉ rows.map month) :
    amountIn month amount rows ym = 0 := by
  have hnone : rows.find? (fun row => decide (month row = ym)) = none := by
    rw [List.find?_eq_none]
    intro row hrow hsame
    exact hnew (List.mem_map.mpr ⟨row, hrow, of_decide_eq_true hsame⟩)
  rw [amountIn, hnone]
  rfl

/-- The amount of a row whose month is new. -/
theorem amountIn_snoc_self {rows : List β} {row : β} (hnew : month row ∉ rows.map month) :
    amountIn month amount (rows ++ [row]) (month row) = amount row := by
  have hnone : rows.find? (fun other => decide (month other = month row)) = none := by
    rw [List.find?_eq_none]
    intro other hother hsame
    exact hnew (List.mem_map.mpr ⟨other, hother, of_decide_eq_true hsame⟩)
  rw [amountIn, List.find?_append, hnone]
  simp

/-- A row of another month changes nothing. -/
theorem amountIn_snoc_of_ne {rows : List β} {row : β} {ym : YearMonth} (hne : month row ≠ ym) :
    amountIn month amount (rows ++ [row]) ym = amountIn month amount rows ym := by
  rw [amountIn, amountIn, List.find?_append]
  simp [hne]

end

/-! ## The join -/

section

variable {M : Type} [Zero M]

/-- What was spent in a month. -/
def spentIn (spending : List (MonthlySpending M)) : YearMonth → M :=
  amountIn MonthlySpending.yearMonth MonthlySpending.totalSpent spending

/-- What was received in a month. -/
def receivedIn (received : List (MonthlyReceived M)) : YearMonth → M :=
  amountIn MonthlyReceived.yearMonth MonthlyReceived.totalReceived received

/-- The point of a month. -/
def pointOf (spending : List (MonthlySpending M)) (received : List (MonthlyReceived M))
    (ym : YearMonth) : ChartDataPoint M :=
  ⟨chartLabel ym.1 ym.2, spentIn spending ym, receivedIn received ym⟩

/-- The months of a list to which a row is added are still different, if its month is new. -/
theorem nodup_months_snoc {β : Type} {month : β → YearMonth} {rows : List β} {row : β}
    (h : ((rows ++ [row]).map month).Nodup) :
    month row ∉ rows.map month ∧ (rows.map month).Nodup := by
  rwa [List.map_append, List.nodup_append_comm, List.map_singleton, List.singleton_append,
    List.nodup_cons] at h

/-- The points of the first loop. -/
theorem foldl_addSpending {spending : List (MonthlySpending M)}
    (hnodup : (spending.map MonthlySpending.yearMonth).Nodup) :
    spending.foldl addSpending [] =
      OrderedMap.tabulate keyOf (pointOf spending []) (spending.map MonthlySpending.yearMonth) := by
  induction spending using List.reverseRecOn with
  | nil => rfl
  | append_singleton spending s ih =>
      obtain ⟨hnew, hrest⟩ := nodup_months_snoc hnodup
      have hpoint : (⟨chartLabel s.year s.month, s.totalSpent, 0⟩ : ChartDataPoint M) =
          pointOf (spending ++ [s]) [] s.yearMonth := by
        rw [pointOf, spentIn, amountIn_snoc_self hnew]
        rfl
      rw [List.foldl_append, List.foldl_cons, List.foldl_nil, ih hrest, addSpending, hpoint,
        List.map_append]
      refine OrderedMap.set_tabulate keyOf_injective hnew fun ym hym => ?_
      -- the earlier months keep their points
      have hne : s.yearMonth ≠ ym := fun hsame => hnew (hsame ▸ hym)
      rw [pointOf, pointOf, spentIn, spentIn, amountIn_snoc_of_ne hne]

/-- A received total changes the point of its own month alone. -/
theorem pointOf_snoc_of_ne {spending : List (MonthlySpending M)}
    {received : List (MonthlyReceived M)} {r : MonthlyReceived M} {ym : YearMonth}
    (hne : ym ≠ r.yearMonth) :
    pointOf spending received ym = pointOf spending (received ++ [r]) ym := by
  rw [pointOf, pointOf, receivedIn, receivedIn, amountIn_snoc_of_ne (Ne.symm hne)]

/-- A round of the second loop completes the point of a month that is there, in its place. -/
theorem addReceived_of_mem {spending : List (MonthlySpending M)}
    {received : List (MonthlyReceived M)} {r : MonthlyReceived M} {months : List YearMonth}
    (hnew : r.yearMonth ∉ received.map MonthlyReceived.yearMonth)
    (hmem : r.yearMonth ∈ months) :
    addReceived (OrderedMap.tabulate keyOf (pointOf spending received) months) r =
      OrderedMap.tabulate keyOf (pointOf spending (received ++ [r])) months := by
  have hself : receivedIn (received ++ [r]) r.yearMonth = r.totalReceived :=
    amountIn_snoc_self hnew
  have hget : (OrderedMap.tabulate keyOf (pointOf spending received) months).get
      (chartKey r.year r.month) = some (pointOf spending received r.yearMonth) :=
    OrderedMap.get_tabulate_of_mem keyOf_injective hmem
  simp only [addReceived, hget]
  refine (OrderedMap.update_tabulate keyOf_injective r.yearMonth _).trans ?_
  refine List.map_congr_left fun ym _ => ?_
  -- the point of the month is written to, the others are as they were
  by_cases hsame : ym = r.yearMonth
  · simp [hsame, pointOf, hself]
  · simp only [if_neg hsame]
    rw [pointOf_snoc_of_ne hsame]

/-- It adds a point for a month that is not there, behind the others. -/
theorem addReceived_of_not_mem {spending : List (MonthlySpending M)}
    {received : List (MonthlyReceived M)} {r : MonthlyReceived M} {months : List YearMonth}
    (hnew : r.yearMonth ∉ received.map MonthlyReceived.yearMonth)
    (hnotSpent : r.yearMonth ∉ spending.map MonthlySpending.yearMonth)
    (hmem : r.yearMonth ∉ months) :
    addReceived (OrderedMap.tabulate keyOf (pointOf spending received) months) r =
      OrderedMap.tabulate keyOf (pointOf spending (received ++ [r]))
        (months ++ [r.yearMonth]) := by
  have hself : receivedIn (received ++ [r]) r.yearMonth = r.totalReceived :=
    amountIn_snoc_self hnew
  have hget : (OrderedMap.tabulate keyOf (pointOf spending received) months).get
      (chartKey r.year r.month) = none :=
    OrderedMap.get_tabulate_of_not_mem keyOf_injective hmem
  have hpoint : (⟨chartLabel r.year r.month, 0, r.totalReceived⟩ : ChartDataPoint M) =
      pointOf spending (received ++ [r]) r.yearMonth := by
    rw [pointOf, hself, spentIn, amountIn_of_not_mem hnotSpent]
    rfl
  simp only [addReceived, hget]
  rw [hpoint]
  exact OrderedMap.set_tabulate keyOf_injective hmem fun ym hym =>
    pointOf_snoc_of_ne fun hsame => hmem (hsame ▸ hym)

/-- **The points of both loops**: each month of either list, once. -/
theorem foldl_addReceived {spending : List (MonthlySpending M)}
    (hspending : (spending.map MonthlySpending.yearMonth).Nodup)
    {received : List (MonthlyReceived M)}
    (hreceived : (received.map MonthlyReceived.yearMonth).Nodup) :
    ∃ months : List YearMonth, months.Nodup ∧
      (∀ ym, ym ∈ months ↔ ym ∈ spending.map MonthlySpending.yearMonth ∨
        ym ∈ received.map MonthlyReceived.yearMonth) ∧
      received.foldl addReceived (spending.foldl addSpending []) =
        OrderedMap.tabulate keyOf (pointOf spending received) months := by
  induction received using List.reverseRecOn with
  | nil =>
      exact ⟨spending.map MonthlySpending.yearMonth, hspending, fun ym => by simp,
        foldl_addSpending hspending⟩
  | append_singleton received r ih =>
      obtain ⟨hnew, hrest⟩ := nodup_months_snoc hreceived
      obtain ⟨months, hnodup, hmonths, hfold⟩ := ih hrest
      -- the months so far and that of `r` are those of both lists
      have hjoined : ∀ ym, ym ∈ spending.map MonthlySpending.yearMonth ∨
          ym ∈ (received ++ [r]).map MonthlyReceived.yearMonth ↔
            ym ∈ months ∨ ym = r.yearMonth := by
        intro ym
        rw [hmonths, List.map_append, List.mem_append, List.map_singleton, List.mem_singleton,
          or_assoc]
      rw [List.foldl_append, List.foldl_cons, List.foldl_nil, hfold]
      by_cases hmem : r.yearMonth ∈ months
      · refine ⟨months, hnodup, fun ym => ?_, addReceived_of_mem hnew hmem⟩
        rw [hjoined]
        exact (or_iff_left_of_imp fun hsame => hsame ▸ hmem).symm
      · have hnotSpent : r.yearMonth ∉ spending.map MonthlySpending.yearMonth := fun hspent =>
          hmem ((hmonths _).mpr (Or.inl hspent))
        refine ⟨months ++ [r.yearMonth], ?_, fun ym => ?_,
          addReceived_of_not_mem hnew hnotSpent hmem⟩
        · rw [List.nodup_append_comm, List.singleton_append]
          exact List.nodup_cons.mpr ⟨hmem, hnodup⟩
        · rw [hjoined, List.mem_append, List.mem_singleton]

/-- **`mergeMonthlyData` is a chronological outer join**: one point for each month of
either list, in strictly increasing order, with what the lists have for it. -/
theorem mergeMonthlyData_exact {spending : List (MonthlySpending M)}
    (hspending : (spending.map MonthlySpending.yearMonth).Nodup)
    {received : List (MonthlyReceived M)}
    (hreceived : (received.map MonthlyReceived.yearMonth).Nodup) :
    ∃ months : List YearMonth, months.Pairwise Before ∧
      (∀ ym, ym ∈ months ↔ ym ∈ spending.map MonthlySpending.yearMonth ∨
        ym ∈ received.map MonthlyReceived.yearMonth) ∧
      mergeMonthlyData spending received = months.map (pointOf spending received) := by
  obtain ⟨months, hnodup, hmonths, hfold⟩ := foldl_addReceived hspending hreceived
  have htrans : ∀ a b c : YearMonth, decide (compareKeys (keyOf a) (keyOf b) ≤ 0) = true →
      decide (compareKeys (keyOf b) (keyOf c) ≤ 0) = true →
        decide (compareKeys (keyOf a) (keyOf c) ≤ 0) = true := by
    intro a b c hab hbc
    simp only [decide_eq_true_eq, compareKeys_keyOf, Before] at hab hbc ⊢
    omega
  have htotal : ∀ a b : YearMonth, (decide (compareKeys (keyOf a) (keyOf b) ≤ 0) ||
      decide (compareKeys (keyOf b) (keyOf a) ≤ 0)) = true := by
    intro a b
    simp only [Bool.or_eq_true, decide_eq_true_eq, compareKeys_keyOf, Before]
    omega
  -- `sort` needs a total preorder to sort at all
  have hsorted := List.pairwise_mergeSort htrans htotal months
  have hperm := List.mergeSort_perm months
    fun a b => decide (compareKeys (keyOf a) (keyOf b) ≤ 0)
  refine ⟨_, ?_, fun ym => (hperm.mem_iff).trans (hmonths ym), ?_⟩
  · -- no month comes twice, so the order is strict
    refine (hsorted.and (hperm.nodup_iff.mpr hnodup)).imp fun {a b} hab => ?_
    obtain ⟨hle, hne⟩ := hab
    rw [decide_eq_true_eq, compareKeys_keyOf] at hle
    rw [ne_eq, Prod.ext_iff] at hne
    simp only [Before] at hle ⊢
    omega
  · have hsort := List.map_mergeSort
      (r := fun a b => decide (compareKeys (keyOf a) (keyOf b) ≤ 0))
      (s := fun a b : JsString × ChartDataPoint M => decide (compareKeys a.1 b.1 ≤ 0))
      (f := fun ym => (keyOf ym, pointOf spending received ym)) (l := months)
      fun _ _ _ _ => rfl
    rw [mergeMonthlyData, hfold, OrderedMap.tabulate, ← hsort, List.map_map]
    rfl

end

/-- Two months that something was spent in, the later one first. -/
def sampleSpending : List (MonthlySpending Int) :=
  [⟨2024, 10, 500, 1⟩, ⟨2023, 12, 700, 2⟩]

/-- Two months that something was received in. -/
def sampleReceived : List (MonthlyReceived Int) :=
  [⟨2024, 9, 800, 1⟩, ⟨2024, 10, 300, 1⟩]

/-- The three months of the samples. -/
theorem mergeMonthlyData_exact_sample :
    ∃ months : List YearMonth, months.Pairwise Before ∧
      (∀ ym, ym ∈ months ↔ ym ∈ sampleSpending.map MonthlySpending.yearMonth ∨
        ym ∈ sampleReceived.map MonthlyReceived.yearMonth) ∧
      mergeMonthlyData sampleSpending sampleReceived =
        months.map (pointOf sampleSpending sampleReceived) :=
  mergeMonthlyData_exact (by decide) (by decide)

end Client
end InfinityLabs
