import InfinityLabs.Client.MonthlyChart
import InfinityLabs.Lib.Runs

/-!
# The spending analytics hook

`useSpendingAnalytics` keeps a selected number of months and what the server last said about
it.  A change of the number and a dashboard refresh each send a request; every response
writes the same state when it arrives, whatever is selected by then.

A step is what React shows as one: the change of the number and the effect that loads for
it, the statements of a load before its `await`, or those after it.  Which response arrives
next is part of the label.  `Origins` is a history variable: the number of months for which
each displayed part was asked.
-/

namespace InfinityLabs
namespace Client

open Lib Server

/-! ## The source -/

/-- `TopRecipient`. -/
structure TopRecipient (M : Type) where
  email : JsString
  totalSent : M
  transactionCount : Nat

/-- `SpendingAnalyticsResponse`. -/
structure SpendingAnalyticsResponse (M : Type) where
  monthlySpending : List (MonthlySpending M)
  monthlyReceived : List (MonthlyReceived M)
  topRecipients : List (TopRecipient M)
  totalSpent : M
  totalReceived : M

/-- `ApiError`: `error.response?.data?.error` and `error.message`. -/
structure ApiError where
  responseError : Option JsString
  message : Option JsString

/-- `a || b` on strings that may be missing: the empty string counts as missing. -/
def orElse (a : Option JsString) (b : JsString) : JsString :=
  match a with
  | none => b
  | some text => if text.isEmpty then b else text

/-- `getErrorMessage`. -/
def getErrorMessage (err : ApiError) : JsString :=
  orElse err.responseError (orElse err.message (js "An error occurred"))

/-- The state of the hook, with the numbers of months of the requests in flight in the
order in which they were sent. -/
structure AnalyticsState (M : Type) where
  months : Nat
  monthlySpending : List (MonthlySpending M)
  monthlyReceived : List (MonthlyReceived M)
  topRecipients : List (TopRecipient M)
  totalSpent : M
  totalReceived : M
  loading : Bool
  error : JsString
  pending : List Nat

/-- What happens to the hook. -/
inductive AnalyticsEvent (M : Type) where
  /-- `setMonths`. -/
  | setMonths (months : Nat)
  /-- The event `dashboard:refresh`. -/
  | refresh
  /-- The request at `index` succeeds. -/
  | succeeded (index : Nat) (data : SpendingAnalyticsResponse M)
  /-- The request at `index` fails. -/
  | failed (index : Nat) (err : ApiError)

/-- `loadAnalytics` up to its `await`. -/
def AnalyticsState.loadAnalytics {M : Type} (showLoading : Bool) (s : AnalyticsState M) :
    AnalyticsState M :=
  { s with
    error := []
    loading := if showLoading then true else s.loading
    pending := s.pending ++ [s.months] }

/-- `loadAnalytics` after an `await` that returned `data`. -/
def AnalyticsState.receive {M : Type} (s : AnalyticsState M) (index : Nat)
    (data : SpendingAnalyticsResponse M) : AnalyticsState M :=
  { s with
    monthlySpending := data.monthlySpending
    monthlyReceived := data.monthlyReceived
    topRecipients := data.topRecipients
    totalSpent := data.totalSpent
    totalReceived := data.totalReceived
    loading := false
    pending := s.pending.eraseIdx index }

/-- `loadAnalytics` after an `await` that threw `err`. -/
def AnalyticsState.fail {M : Type} (s : AnalyticsState M) (index : Nat) (err : ApiError) :
    AnalyticsState M :=
  { s with
    error := getErrorMessage err
    loading := false
    pending := s.pending.eraseIdx index }

/-- One event. -/
def AnalyticsState.step {M : Type} (s : AnalyticsState M) :
    AnalyticsEvent M → Option (AnalyticsState M)
  | .setMonths months =>
      -- React neither renders nor runs the effect where the number stays as it is.
      if months = s.months then some s
      else some (AnalyticsState.loadAnalytics true { s with months := months })
  | .refresh => some (s.loadAnalytics false)
  | .succeeded index data => if index < s.pending.length then some (s.receive index data) else none
  | .failed index err => if index < s.pending.length then some (s.fail index err) else none

/-- The mounted hook: its initial state, and the effect has sent the first request. -/
def AnalyticsState.mounted {M : Type} [Zero M] : AnalyticsState M :=
  { months := 6
    monthlySpending := []
    monthlyReceived := []
    topRecipients := []
    totalSpent := 0
    totalReceived := 0
    loading := true
    error := []
    pending := [6] }

/-- `useSpendingAnalytics` under the events that can happen to it. -/
def useSpendingAnalytics (M : Type) [Zero M] :
    Machine (AnalyticsState M) (AnalyticsEvent M) where
  start s := s = AnalyticsState.mounted
  step := AnalyticsState.step

/-! ## Origins -/

/-- For which number of months the displayed parts were asked; `none` for what no request
has brought. -/
structure Origins where
  monthlySpending : Option Nat
  monthlyReceived : Option Nat
  topRecipients : Option Nat
  totalSpent : Option Nat
  totalReceived : Option Nat
  error : Option Nat

/-- Nothing was asked yet. -/
def Origins.unasked : Origins :=
  ⟨none, none, none, none, none, none⟩

/-- The origins after an event: a load empties the error, a response writes its parts. -/
def Origins.follow {M : Type} (s : AnalyticsState M) (event : AnalyticsEvent M) (o : Origins) :
    Origins :=
  match event with
  | .setMonths months => if months = s.months then o else { o with error := none }
  | .refresh => { o with error := none }
  | .succeeded index _ =>
      let asked := s.pending[index]?
      { o with
        monthlySpending := asked
        monthlyReceived := asked
        topRecipients := asked
        totalSpent := asked
        totalReceived := asked }
  | .failed index _ => { o with error := s.pending[index]? }

/-- The hook with the origins of what it displays. -/
def analyticsWithOrigins (M : Type) [Zero M] :
    Machine (AnalyticsState M × Origins) (AnalyticsEvent M) :=
  (useSpendingAnalytics M).recording (fun _ => Origins.unasked) Origins.follow

/-- The origins change nothing of the hook. -/
theorem reached_withOrigins_iff {M : Type} [Zero M] {s : AnalyticsState M} :
    (useSpendingAnalytics M).Reached s ↔ ∃ o, (analyticsWithOrigins M).Reached (s, o) :=
  Machine.reached_recording_iff

/-- Every part of the data was asked for `months`. -/
structure Origins.DataFrom (o : Origins) (months : Nat) : Prop where
  monthlySpending : o.monthlySpending = some months
  monthlyReceived : o.monthlyReceived = some months
  topRecipients : o.topRecipients = some months
  totalSpent : o.totalSpent = some months
  totalReceived : o.totalReceived = some months

/-- What is displayed belongs to the selected number of months: the error where there is
one, and otherwise the data. -/
def ShowsSelected {M : Type} (s : AnalyticsState M × Origins) : Prop :=
  (s.1.error ≠ [] → s.2.error = some s.1.months) ∧
    (s.1.error = [] → s.2.DataFrom s.1.months)

/-- A failed request was for the selected number.  A request that succeeds was for it too,
or an error is displayed, or another request for that number is still to be answered. -/
def ArrivesInTime {M : Type} (s : AnalyticsState M × Origins) : AnalyticsEvent M → Prop
  | .setMonths _ => True
  | .refresh => True
  | .succeeded index _ =>
      s.1.pending[index]? = some s.1.months ∨ s.1.error ≠ [] ∨
        s.1.months ∈ s.1.pending.eraseIdx index
  | .failed index _ => s.1.pending[index]? = some s.1.months

/-! ## One event -/

section

variable {M : Type}

/-- The failure of a request always displays something. -/
theorem getErrorMessage_ne_nil (err : ApiError) : getErrorMessage err ≠ [] := by
  have horElse : ∀ (a : Option JsString) (b : JsString), b ≠ [] → orElse a b ≠ [] := by
    intro a b hb
    unfold orElse
    split
    · exact hb
    · split
      · exact hb
      · rename_i text hempty
        exact fun h => hempty (List.isEmpty_iff.mpr h)
  exact horElse _ _ (horElse _ _ (by decide))

/-- What one event does to the hook. -/
theorem AnalyticsState.step_cases {s s' : AnalyticsState M} {event : AnalyticsEvent M}
    (hstep : s.step event = some s') :
    (event = .setMonths s.months ∧ s' = s) ∨
      (∃ months, months ≠ s.months ∧ event = .setMonths months ∧
        s' = AnalyticsState.loadAnalytics true { s with months := months }) ∨
      (event = .refresh ∧ s' = s.loadAnalytics false) ∨
      (∃ index data, index < s.pending.length ∧ event = .succeeded index data ∧
        s' = s.receive index data) ∨
      (∃ index err, index < s.pending.length ∧ event = .failed index err ∧
        s' = s.fail index err) := by
  cases event with
  | setMonths months =>
      simp only [AnalyticsState.step] at hstep
      split at hstep
      case isTrue hsame => exact Or.inl ⟨by rw [hsame], (Option.some.inj hstep).symm⟩
      case isFalse hother =>
        exact Or.inr (Or.inl ⟨months, hother, rfl, (Option.some.inj hstep).symm⟩)
  | refresh => exact Or.inr (Or.inr (Or.inl ⟨rfl, (Option.some.inj hstep).symm⟩))
  | succeeded index data =>
      obtain ⟨hindex, hs'⟩ := Option.ite_none_right_eq_some.mp hstep
      exact Or.inr (Or.inr (Or.inr (Or.inl
        ⟨index, data, hindex, rfl, (Option.some.inj hs').symm⟩)))
  | failed index err =>
      obtain ⟨hindex, hs'⟩ := Option.ite_none_right_eq_some.mp hstep
      exact Or.inr (Or.inr (Or.inr (Or.inr
        ⟨index, err, hindex, rfl, (Option.some.inj hs').symm⟩)))

/-- What holds along the runs without a late response: a displayed error is that of the
selected number, and without one the data is, or will be.  The hook loads only while it
waits for an answer. -/
structure InTime (s : AnalyticsState M × Origins) : Prop where
  error_selected : s.1.error ≠ [] → s.2.error = some s.1.months
  data_selected : s.1.error = [] → s.2.DataFrom s.1.months ∨ s.1.months ∈ s.1.pending
  loading_waits : s.1.loading = true → s.1.pending ≠ []

/-- A load starts with a request for the selected number and no error. -/
theorem InTime.loadAnalytics (showLoading : Bool) (s : AnalyticsState M) (o : Origins) :
    InTime (s.loadAnalytics showLoading, o) where
  error_selected h := absurd rfl h
  data_selected _ := Or.inr (List.mem_append_right _ List.mem_cons_self)
  loading_waits _ := List.append_ne_nil_of_right_ne_nil _ (List.cons_ne_nil _ _)

/-- A response for the selected number brings its data; one for another number does no harm
while an error is displayed or the selected number is still asked for. -/
theorem InTime.receive {s : AnalyticsState M} {o : Origins} {index : Nat}
    {data : SpendingAnalyticsResponse M} (h : InTime (s, o))
    (harrives : ArrivesInTime (s, o) (.succeeded index data)) :
    InTime (s.receive index data, o.follow s (.succeeded index data)) where
  error_selected := h.error_selected
  data_selected herror := by
    rcases harrives with hasked | hshown | hmem
    · exact Or.inl ⟨hasked, hasked, hasked, hasked, hasked⟩
    · exact absurd herror hshown
    -- the data is late, but the request in flight will replace it
    · exact Or.inr hmem
  loading_waits hloading := Bool.noConfusion hloading

/-- A failure displays the error of its own request. -/
theorem InTime.fail {s : AnalyticsState M} {o : Origins} {index : Nat} {err : ApiError}
    (harrives : ArrivesInTime (s, o) (.failed index err)) :
    InTime (s.fail index err, o.follow s (.failed index err)) where
  error_selected _ := harrives
  data_selected herror := absurd herror (getErrorMessage_ne_nil err)
  loading_waits hloading := Bool.noConfusion hloading

/-- An event that meets the condition keeps the invariant. -/
theorem InTime.step [Zero M] {s s' : AnalyticsState M × Origins} {event : AnalyticsEvent M}
    (h : InTime s) (harrives : ArrivesInTime s event)
    (hstep : (analyticsWithOrigins M).step s event = some s') : InTime s' := by
  obtain ⟨s, o⟩ := s
  obtain ⟨next, o'⟩ := s'
  obtain ⟨hnext, rfl⟩ := Machine.recording_step_eq hstep
  rcases AnalyticsState.step_cases hnext with
    ⟨rfl, hsame⟩ | ⟨months, _, rfl, hload⟩ | ⟨rfl, hload⟩ |
      ⟨index, data, _, rfl, hreceive⟩ | ⟨index, err, _, rfl, hfail⟩
  · simp only at hsame
    rw [hsame, Origins.follow, if_pos rfl]
    exact h
  · simp only at hload
    rw [hload]
    exact InTime.loadAnalytics true _ _
  · simp only at hload
    rw [hload]
    exact InTime.loadAnalytics false _ _
  · simp only at hreceive
    rw [hreceive]
    exact h.receive harrives
  · simp only at hfail
    rw [hfail]
    exact InTime.fail harrives

/-- Every run without a late response keeps the invariant. -/
theorem inTime_of_reachedBy [Zero M] {s : AnalyticsState M × Origins}
    (h : (analyticsWithOrigins M).ReachedBy ArrivesInTime s) : InTime s := by
  refine h.invariant (fun s hstart => ?_) (fun s event s' => InTime.step)
  obtain ⟨s, o⟩ := s
  have hmounted : s = AnalyticsState.mounted := hstart.1
  rw [hmounted]
  exact InTime.loadAnalytics true { AnalyticsState.mounted with pending := [] } o

/-- With no request in flight nothing is left to wait for. -/
theorem InTime.showsSelected {s : AnalyticsState M × Origins} (h : InTime s)
    (hpending : s.1.pending = []) : s.1.loading = false ∧ ShowsSelected s := by
  refine ⟨?_, h.error_selected, fun herror => ?_⟩
  · exact Bool.eq_false_iff.mpr fun hloading => h.loading_waits hloading hpending
  · rcases h.data_selected herror with hdata | hmem
    · exact hdata
    · rw [hpending] at hmem
      cases hmem

/-! ## Late responses -/

/-- What is displayed was not asked for the selected number, and no request in flight will
change that. -/
def ShowsLate (s : AnalyticsState M × Origins) : Prop :=
  (s.1.error ≠ [] ∧ s.2.error ≠ some s.1.months) ∨
    (s.1.error = [] ∧ s.2.monthlySpending ≠ some s.1.months ∧ s.1.months ∉ s.1.pending)

/-- The two conditions exclude each other. -/
theorem ShowsLate.not_showsSelected {s : AnalyticsState M × Origins} (h : ShowsLate s) :
    ¬ ShowsSelected s := by
  rintro ⟨herror, hdata⟩
  rcases h with ⟨hshown, hlate⟩ | ⟨hnone, hlate, _⟩
  · exact hlate (herror hshown)
  · exact hlate (hdata hnone).monthlySpending

/-- A response that does not arrive in time leaves something late on display. -/
theorem showsLate_of_step [Zero M] {s s' : AnalyticsState M × Origins}
    {event : AnalyticsEvent M} (hlate : ¬ ArrivesInTime s event)
    (hstep : (analyticsWithOrigins M).step s event = some s') : ShowsLate s' := by
  obtain ⟨hnext, horigins⟩ := Machine.recording_step_eq hstep
  obtain ⟨next, o'⟩ := s'
  simp only at hnext horigins
  rcases AnalyticsState.step_cases hnext with
    ⟨rfl, _⟩ | ⟨months, _, rfl, _⟩ | ⟨rfl, _⟩ |
      ⟨index, data, _, rfl, rfl⟩ | ⟨index, err, _, rfl, rfl⟩
  · exact absurd trivial hlate
  · exact absurd trivial hlate
  · exact absurd trivial hlate
  · obtain ⟨hasked, hshown, hmem⟩ := not_or.mp hlate |>.imp_right not_or.mp
    -- the response wrote its data, and nothing else is asked for the selected number
    subst horigins
    exact Or.inr ⟨not_not.mp hshown, hasked, hmem⟩
  · subst horigins
    exact Or.inl ⟨getErrorMessage_ne_nil err, hlate⟩

/-- The displayed data as a response. -/
def AnalyticsState.displayed (s : AnalyticsState M) : SpendingAnalyticsResponse M :=
  ⟨s.monthlySpending, s.monthlyReceived, s.topRecipients, s.totalSpent, s.totalReceived⟩

/-- The answer to the first request leaves it there. -/
theorem ShowsLate.receive {s : AnalyticsState M} {o : Origins} {asked : Nat} {rest : List Nat}
    (h : ShowsLate (s, o)) (hpending : s.pending = asked :: rest)
    (data : SpendingAnalyticsResponse M) :
    ShowsLate (s.receive 0 data, o.follow s (.succeeded 0 data)) := by
  rcases h with ⟨hshown, hlate⟩ | ⟨hnone, _, hmem⟩
  · exact Or.inl ⟨hshown, hlate⟩
  · -- no request in flight is for the selected number, so the new data is late as well
    simp only [hpending, List.mem_cons, not_or] at hmem
    refine Or.inr ⟨hnone, ?_, ?_⟩
    · simp only [Origins.follow, hpending, List.getElem?_cons_zero]
      exact fun hsame => hmem.1 (Option.some.inj hsame).symm
    · simp only [AnalyticsState.receive, hpending, List.eraseIdx_cons_zero]
      exact hmem.2

/-- A request in flight can be answered. -/
theorem step_succeeded [Zero M] {s : AnalyticsState M} {asked : Nat} {rest : List Nat}
    (hpending : s.pending = asked :: rest) (o : Origins) (data : SpendingAnalyticsResponse M) :
    (analyticsWithOrigins M).step (s, o) (.succeeded 0 data) =
      some (s.receive 0 data, o.follow s (.succeeded 0 data)) := by
  have hindex : 0 < s.pending.length := by
    rw [hpending]
    exact Nat.succ_pos _
  simp only [analyticsWithOrigins, Machine.recording, useSpendingAnalytics, AnalyticsState.step,
    if_pos hindex, Option.map_some]

/-- Once something late is on display, it stays although every request in flight is
answered. -/
theorem ShowsLate.exists_answers [Zero M] {s : AnalyticsState M × Origins}
    (h : ShowsLate s) :
    ∃ (events : List (AnalyticsEvent M)) (t : AnalyticsState M × Origins),
      (∀ event ∈ events, ∃ data, event = .succeeded 0 data) ∧
        (analyticsWithOrigins M).run s events = some t ∧ t.1.pending = [] ∧
          ¬ ShowsSelected t := by
  obtain ⟨state, o⟩ := s
  -- one answer after the other, by induction on the requests in flight
  induction hpending : state.pending generalizing state o with
  | nil => exact ⟨[], (state, o), by simp, rfl, hpending, h.not_showsSelected⟩
  | cons asked rest ih =>
      have hrest : (state.receive 0 state.displayed).pending = rest := by
        simp only [AnalyticsState.receive, hpending, List.eraseIdx_cons_zero]
      obtain ⟨events, t, hevents, hrun, ht⟩ :=
        ih _ _ (h.receive hpending state.displayed) hrest
      refine ⟨.succeeded 0 state.displayed :: events, t, ?_, ?_, ht⟩
      · exact List.forall_mem_cons.mpr ⟨⟨_, rfl⟩, hevents⟩
      · rw [Machine.run, step_succeeded hpending]
        exact hrun

end

/-! ## What is on display when no request is in flight -/

/-- In every run in which a late response finds an error on display, or the selected number
still asked for, and in which only requests for that number fail, the hook displays what was
asked for the selected number once no request is in flight.  From a late response of any
other kind answers alone lead to a display that was not asked for it. -/
theorem analyticsShown_exact {M : Type} [Zero M] :
    (∀ s, (analyticsWithOrigins M).ReachedBy ArrivesInTime s → s.1.pending = [] →
      s.1.loading = false ∧ ShowsSelected s) ∧
      ∀ s event s', (analyticsWithOrigins M).step s event = some s' →
        ¬ ArrivesInTime s event →
          ∃ events t, (∀ event ∈ events, ∃ data, event = .succeeded 0 data) ∧
            (analyticsWithOrigins M).run s' events = some t ∧ t.1.pending = [] ∧
              ¬ ShowsSelected t :=
  ⟨fun _ h => (inTime_of_reachedBy h).showsSelected,
    fun _ _ _ hstep hlate => (showsLate_of_step hlate hstep).exists_answers⟩

/-- Totals of a response, without months or recipients. -/
def sampleAnswer (totalSpent totalReceived : Nat) : SpendingAnalyticsResponse Nat :=
  ⟨[], [], [], totalSpent, totalReceived⟩

/-- The mounted hook displays nothing that was asked for. -/
theorem analyticsWithOrigins_start (M : Type) [Zero M] :
    (analyticsWithOrigins M).start (AnalyticsState.mounted, Origins.unasked) :=
  ⟨rfl, rfl⟩

/-- Three months are selected before the first answer arrives: the answer for six months is
late, and the one for three follows. -/
def sampleSelection : List (AnalyticsEvent Nat) :=
  [.setMonths 3, .succeeded 0 (sampleAnswer 600 60), .succeeded 0 (sampleAnswer 300 30)]

/-- At its end the totals of three months are displayed. -/
theorem analyticsShown_exact_sample :
    ∃ s, (analyticsWithOrigins Nat).run (AnalyticsState.mounted, Origins.unasked)
        sampleSelection = some s ∧
      s.1.months = 3 ∧ s.1.totalSpent = 300 ∧ s.1.loading = false ∧ ShowsSelected s := by
  have hadmits : (analyticsWithOrigins Nat).Admits ArrivesInTime
      (AnalyticsState.mounted, Origins.unasked) sampleSelection :=
    ⟨trivial, Or.inr (Or.inr (List.mem_singleton.mpr rfl)), Or.inl rfl, trivial⟩
  exact ⟨_, rfl, rfl, rfl, analyticsShown_exact.1 _
    (Machine.ReachedBy.run (.start (analyticsWithOrigins_start Nat)) hadmits rfl) rfl⟩

/-- A dashboard refresh asks again for six months, then three months are selected, and the
answer for three arrives first: the totals of six months stay beside the selected three. -/
theorem analyticsShown_late :
    ∃ s, (analyticsWithOrigins Nat).Reached s ∧ s.1.pending = [] ∧ s.1.months = 3 ∧
      s.1.error = [] ∧ s.1.totalSpent = 600 ∧ s.2.totalSpent = some 6 ∧ ¬ ShowsSelected s := by
  have hrun : ∃ s, (analyticsWithOrigins Nat).run (AnalyticsState.mounted, Origins.unasked)
      [.succeeded 0 (sampleAnswer 600 60), .refresh, .setMonths 3,
        .succeeded 1 (sampleAnswer 300 30), .succeeded 0 (sampleAnswer 600 60)] = some s ∧
      s.1.pending = [] ∧ s.1.months = 3 ∧ s.1.error = [] ∧ s.1.totalSpent = 600 ∧
      s.2.totalSpent = some 6 := ⟨_, rfl, rfl, rfl, rfl, rfl, rfl⟩
  obtain ⟨s, hs, hpending, hmonths, herror, hspent, horigin⟩ := hrun
  refine ⟨s, Machine.Reached.run (.start (analyticsWithOrigins_start Nat)) hs, hpending, hmonths,
    herror, hspent, horigin, fun hshows => ?_⟩
  have hselected := (hshows.2 herror).totalSpent
  rw [horigin, hmonths] at hselected
  cases hselected

end Client
end InfinityLabs
