import InfinityLabs.Lib.DateValue
import InfinityLabs.Server.Transfer
import Mathlib.Data.List.Dedup
import Mathlib.Data.List.Sort

/-!
# The window of the analytics

`startOfMonthNMonthsAgo` steps back by months before it sets the day to the first.  Where
the month it steps to has no such day, `setMonth` rolls into the following month, and the
window starts one month too late.

Dates are local to the server, whose clock has the constant offset `tza`; the months that
Mongo groups by are those of UTC.
-/

namespace InfinityLabs
namespace Server

open Lib

/-! ## The source -/

/-- `startOfMonthNMonthsAgo` at the current time `now`. -/
def startOfMonthNMonthsAgo (tza now : Int) (months : Nat) : DateValue :=
  let date : DateValue := some now
  let date := date.setMonth tza ((date.getMonth tza).map fun month => month - months)
  let date := date.setDate tza 1
  date.setMidnight tza

/-- A stored transaction with the time stamp that mongoose gives it. -/
structure Posting where
  transaction : Transaction
  createdAt : Int
  deriving DecidableEq, Repr

/-- The stage `$match`: the user's transactions from the start date on. -/
def matchStage (emailField : Transaction → JsString) (userEmail : JsString) (startDate : Int)
    (postings : List Posting) : List Posting :=
  postings.filter fun p => emailField p.transaction = userEmail ∧ p.createdAt ≥ startDate

/-- A row of the monthly totals. -/
structure MonthRow where
  year : Int
  month : Int
  total : Int
  transactionCount : Nat
  deriving DecidableEq, Repr

/-- The month number of `{ $year, $month }`. -/
def Posting.month (p : Posting) : Int := monthOf (day p.createdAt)

/-- The stages `$group`, `$sort` and `$project`; the amounts are whole cents, which
`$round` leaves. -/
def groupByMonth (matched : List Posting) : List MonthRow :=
  ((matched.map Posting.month).dedup.mergeSort (fun m m' => m ≤ m')).map fun m =>
    let group := matched.filter fun p => p.month = m
    ⟨m / 12, m % 12 + 1, (group.map fun p => p.transaction.amount).sum, group.length⟩

/-- `aggregateMonthlyByDirection`, where the start date is valid. -/
def aggregateMonthlyByDirection (emailField : Transaction → JsString) (userEmail : JsString)
    (startDate : DateValue) (postings : List Posting) : Option (List MonthRow) :=
  startDate.map fun start => groupByMonth (matchStage emailField userEmail start postings)

/-- `getMonthlySpending`. -/
def getMonthlySpending (tza now : Int) (postings : List Posting) (userEmail : JsString)
    (months : Nat) : Option (List MonthRow) :=
  aggregateMonthlyByDirection Transaction.fromEmail userEmail
    (startOfMonthNMonthsAgo tza now months) postings

/-- `getMonthlyReceived`. -/
def getMonthlyReceived (tza now : Int) (postings : List Posting) (userEmail : JsString)
    (months : Nat) : Option (List MonthRow) :=
  aggregateMonthlyByDirection Transaction.toEmail userEmail
    (startOfMonthNMonthsAgo tza now months) postings

/-- A row of the recipients. -/
structure RecipientRow where
  email : JsString
  totalSent : Int
  transactionCount : Nat
  deriving DecidableEq, Repr

/-- The stages of `getTopRecipients` behind `$match`. -/
def groupByRecipient (matched : List Posting) (limit : Nat) : List RecipientRow :=
  let rows := (matched.map fun p => p.transaction.toEmail).dedup.map fun email =>
    let group := matched.filter fun p => p.transaction.toEmail = email
    (⟨email, (group.map fun p => p.transaction.amount).sum, group.length⟩ : RecipientRow)
  (rows.mergeSort fun r r' => r.totalSent ≥ r'.totalSent).take limit

/-- `getTopRecipients`. -/
def getTopRecipients (tza now : Int) (postings : List Posting) (userEmail : JsString)
    (months limit : Nat) : Option (List RecipientRow) :=
  (startOfMonthNMonthsAgo tza now months).map fun start =>
    groupByRecipient (matchStage Transaction.fromEmail userEmail start postings) limit

/-! ## What the window is for -/

/-- The local month of a time. -/
def localMonth (tza t : Int) : Int := monthOf (day (t + tza))

/-- Midnight of the first day of local month `m`. -/
def firstMidnight (tza m : Int) : Int := makeDate (monthStart m) 0 - tza

/-- A transaction of the window: from `userEmail` or to it, as `emailField` says, and not
before the month `months` before the current one. -/
structure InWindow (tza now : Int) (months : Nat) (emailField : Transaction → JsString)
    (userEmail : JsString) (p : Posting) : Prop where
  email : emailField p.transaction = userEmail
  month : localMonth tza now - months ≤ localMonth tza p.createdAt

/-- A month has a row among the totals. -/
def Listed (rows : Option (List MonthRow)) (m : Int) : Prop :=
  ∃ listed, rows = some listed ∧ ∃ row ∈ listed, row.year = m / 12 ∧ row.month = m % 12 + 1

/-- The window starts with the month `months` before the current one.  So the month of each
transaction from there on has its row, and the recipients are grouped over them all. -/
structure WindowStarts (tza now : Int) (months : Nat) : Prop where
  start : startOfMonthNMonthsAgo tza now months =
    some (firstMidnight tza (localMonth tza now - months))
  spending : ∀ postings userEmail, ∀ p ∈ postings,
    InWindow tza now months Transaction.fromEmail userEmail p →
      Listed (getMonthlySpending tza now postings userEmail months) p.month
  received : ∀ postings userEmail, ∀ p ∈ postings,
    InWindow tza now months Transaction.toEmail userEmail p →
      Listed (getMonthlyReceived tza now postings userEmail months) p.month
  recipients : ∀ postings userEmail limit, ∃ matched,
    getTopRecipients tza now postings userEmail months limit =
        some (groupByRecipient matched limit) ∧
      ∀ p ∈ postings, InWindow tza now months Transaction.fromEmail userEmail p → p ∈ matched

/-- A time lies in a month from `m` on if it is not before the month's first midnight. -/
theorem firstMidnight_le_iff {tza m t : Int} :
    firstMidnight tza m ≤ t ↔ m ≤ localMonth tza t := by
  rw [localMonth, le_monthOf_iff]
  simp only [firstMidnight, makeDate, day, msPerDay]
  omega

/-- A matched transaction has a row for its month. -/
theorem exists_row_of_mem {matched : List Posting} {p : Posting} (hp : p ∈ matched) :
    ∃ row ∈ groupByMonth matched, row.year = p.month / 12 ∧ row.month = p.month % 12 + 1 := by
  refine ⟨_, List.mem_map_of_mem ?_, rfl, rfl⟩
  rw [List.mem_mergeSort, List.mem_dedup]
  exact List.mem_map_of_mem hp

/-! ## The three setters -/

/-- The month that `setMonth` steps to: the one meant, or the following one where the
current day number is too great for it. -/
def steppedMonth (tza now : Int) (months : Nat) : Int :=
  if dateFromTime (now + tza) ≤ daysInMonth (localMonth tza now - months) then
    localMonth tza now - months
  else localMonth tza now - months + 1

/-- The day that `setMonth` steps to lies in this month. -/
theorem monthOf_stepped (tza now : Int) (months : Nat) :
    monthOf (monthStart (localMonth tza now - months) + dateFromTime (now + tza) - 1) =
      steppedMonth tza now months := by
  obtain ⟨hlow, hhigh⟩ := dateFromTime_bounds (now + tza)
  have hdays := daysInMonth_bounds (monthOf (day (now + tza)))
  rw [steppedMonth]
  split
  · rename_i hfits
    exact monthOf_date hlow hfits
  · rename_i hover
    exact monthOf_date_over (by omega) (by omega)

/-- **What the three setters make of the current time**: each clips its time value. -/
theorem startOfMonthNMonthsAgo_eq (tza now : Int) (months : Nat) :
    startOfMonthNMonthsAgo tza now months =
      (timeClip (makeDate (monthStart (localMonth tza now - months) +
          dateFromTime (now + tza) - 1) (timeWithinDay (now + tza)) - tza)).bind fun _ =>
        (timeClip (makeDate (monthStart (steppedMonth tza now months))
            (timeWithinDay (now + tza)) - tza)).bind fun _ =>
          timeClip (firstMidnight tza (steppedMonth tza now months)) := by
  have htime := timeWithinDay_bounds (now + tza)
  have hmonth : 12 * yearFromTime (now + tza) + (monthFromTime (now + tza) - months) =
      localMonth tza now - months := by
    have hsum := year_month (now + tza)
    rw [localMonth]
    omega
  rw [startOfMonthNMonthsAgo]
  simp only [DateValue.getMonth, DateValue.setMonth, Option.map_some, Option.bind_some, makeDay,
    hmonth]
  -- the day that is stepped to, then the first day of its month
  generalize hstep : makeDate _ _ - tza = stepped
  have hday : day (stepped + tza) =
      monthStart (localMonth tza now - months) + dateFromTime (now + tza) - 1 := by
    rw [← hstep, Int.sub_add_cancel, day_makeDate _ htime]
  have hwithin : timeWithinDay (stepped + tza) = timeWithinDay (now + tza) := by
    rw [← hstep, Int.sub_add_cancel, timeWithinDay_makeDate _ htime]
  cases hclip : timeClip stepped with
  | none => rfl
  | some t =>
      obtain ⟨-, rfl⟩ := timeClip_eq_some.mp hclip
      simp only [DateValue.setDate, Option.bind_some, makeDay, year_month, hday, hwithin,
        monthOf_stepped, Int.add_sub_cancel]
      generalize hfirst : makeDate _ _ - tza = first
      have hday' : day (first + tza) = monthStart (steppedMonth tza now months) := by
        rw [← hfirst, Int.sub_add_cancel, day_makeDate _ htime]
      cases hclip' : timeClip first with
      | none => rfl
      | some t' =>
          obtain ⟨-, rfl⟩ := timeClip_eq_some.mp hclip'
          simp only [DateValue.setMidnight, Option.bind_some, hday']
          rfl

/-! ## When the window starts in the right month -/

/-- The local date of the current time. -/
theorem now_eq (tza now : Int) :
    now = makeDate (monthStart (localMonth tza now) + dateFromTime (now + tza) - 1)
      (timeWithinDay (now + tza)) - tza := by
  have hday : monthStart (localMonth tza now) + dateFromTime (now + tza) - 1 =
      day (now + tza) := by
    simp only [localMonth, dateFromTime]
    omega
  rw [hday, makeDate_day, Int.add_sub_cancel]

/-- A window that starts with its month keeps the transactions from there on. -/
theorem mem_matchStage {tza now : Int} {months : Nat} {emailField : Transaction → JsString}
    {userEmail : JsString} {postings : List Posting} {p : Posting} (hp : p ∈ postings)
    (h : InWindow tza now months emailField userEmail p) :
    p ∈ matchStage emailField userEmail (firstMidnight tza (localMonth tza now - months))
      postings := by
  rw [matchStage, List.mem_filter, decide_eq_true_eq]
  exact ⟨hp, h.email, firstMidnight_le_iff.mpr h.month⟩

/-- From a right start the queries leave no month out. -/
theorem windowStarts_of_start {tza now : Int} {months : Nat}
    (hstart : startOfMonthNMonthsAgo tza now months =
      some (firstMidnight tza (localMonth tza now - months))) : WindowStarts tza now months := by
  have hlisted : ∀ emailField userEmail postings, ∀ p ∈ postings,
      InWindow tza now months emailField userEmail p →
        Listed (aggregateMonthlyByDirection emailField userEmail
          (startOfMonthNMonthsAgo tza now months) postings) p.month := by
    intro emailField userEmail postings p hp hwindow
    rw [hstart]
    exact ⟨_, rfl, exists_row_of_mem (mem_matchStage hp hwindow)⟩
  refine ⟨hstart, fun postings userEmail => hlisted _ userEmail postings,
    fun postings userEmail => hlisted _ userEmail postings, fun postings userEmail limit => ?_⟩
  rw [getTopRecipients, hstart]
  exact ⟨_, rfl, fun p hp => mem_matchStage hp⟩

/-- **When the window starts in the right month**: exactly if that month has the current
day number, and its first midnight is not before the least time value. -/
theorem windowStarts_iff {tza now : Int} (hnow : -maxTime ≤ now ∧ now ≤ maxTime) (months : Nat) :
    WindowStarts tza now months ↔
      dateFromTime (now + tza) ≤ daysInMonth (localMonth tza now - months) ∧
        -maxTime ≤ firstMidnight tza (localMonth tza now - months) := by
  have heq := startOfMonthNMonthsAgo_eq tza now months
  constructor
  · intro hstarts
    rw [hstarts.start] at heq
    obtain ⟨-, -, hrest⟩ := Option.bind_eq_some_iff.mp heq.symm
    obtain ⟨-, -, hclip⟩ := Option.bind_eq_some_iff.mp hrest
    obtain ⟨hrange, hsame⟩ := timeClip_eq_some.mp hclip
    rw [hsame] at hrange
    refine ⟨?_, hrange.1⟩
    by_contra hover
    -- the following month starts later
    rw [steppedMonth, if_neg hover] at hsame
    have hnext := monthStart_succ (localMonth tza now - months)
    have hdays := daysInMonth_bounds (localMonth tza now - months)
    simp only [firstMidnight, makeDate, msPerDay] at hsame
    omega
  · rintro ⟨hfits, hrange⟩
    apply windowStarts_of_start
    have htime := timeWithinDay_bounds (now + tza)
    have hdate := dateFromTime_bounds (now + tza)
    have hmono := monthStart_mono (k := localMonth tza now - months) (m := localMonth tza now)
      (by omega)
    have hlocal := now_eq tza now
    rw [heq, steppedMonth, if_pos hfits]
    -- the three time values lie between the target and the current time
    simp only [firstMidnight, makeDate, msPerDay] at hrange hlocal htime ⊢
    rw [timeClip, if_pos (by omega), Option.bind_some, timeClip, if_pos (by omega),
      Option.bind_some, timeClip, if_pos (by omega)]

/-- On 31 March 2025 the window of one month starts in March. -/
theorem windowStarts_marchLast :
    ¬ ∀ tza now : Int, -maxTime ≤ now ∧ now ≤ maxTime → ∀ months, WindowStarts tza now months := by
  intro hclaim
  have hstart := (hclaim 0 1743422400000 (by decide) 1).start
  have hmonth : localMonth 0 1743422400000 = 24302 := monthOf_eq (by decide) (by decide)
  have hdate : dateFromTime (1743422400000 + 0) = 31 := by
    rw [dateFromTime, ← localMonth, hmonth]
    decide
  -- February has no day 31
  have hstepped : steppedMonth 0 1743422400000 1 = 24302 := by
    rw [steppedMonth, hmonth, hdate]
    decide
  rw [startOfMonthNMonthsAgo_eq, hstepped, hmonth, hdate] at hstart
  revert hstart
  decide

/-- The window of one month on 15 March 2025. -/
theorem windowStarts_iff_sample :
    WindowStarts 0 1742040000000 1 ↔
      dateFromTime (1742040000000 + 0) ≤ daysInMonth (localMonth 0 1742040000000 - (1 : Nat)) ∧
        -maxTime ≤ firstMidnight 0 (localMonth 0 1742040000000 - (1 : Nat)) :=
  windowStarts_iff (by decide) 1

end Server
end InfinityLabs
