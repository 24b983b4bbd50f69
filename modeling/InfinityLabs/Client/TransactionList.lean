import InfinityLabs.Client.SpendingAnalytics
import InfinityLabs.Server.TransactionPages

/-!
# The transaction list hook

`useTransactions` loads the page that the address names.  Its effect runs anew for every page,
and the cleanup of the run before it sets that run's `cancelled`; a response that comes to a run
that is cancelled changes nothing.  Responses come in any order, and late ones after the component
is gone.

As in the other hooks, a step is what React shows as one, and which response arrives next is part
of the label.
-/

namespace InfinityLabs
namespace Client

open Lib Server

/-- `TransactionsResponse`; a response of the server may lack a part. -/
structure TransactionsResponse where
  transactions : Option (List Transaction)
  totalPages : Option Nat

/-- A run of the effect: the page it asks for, whether its cleanup has run, and what came of its
request. -/
structure EffectRun where
  page : Int
  cancelled : Bool
  outcome : Option (Except ApiError TransactionsResponse)

/-- The state of the hook, the page in the address, and the runs of the effect, the last one
first. -/
structure TransactionsState where
  transactions : List Transaction
  totalPages : Nat
  loading : Bool
  error : JsString
  currentPage : Int
  mounted : Bool
  runs : List EffectRun

/-- What happens to the hook. -/
inductive TransactionsEvent where
  /-- The address has another `?page=`. -/
  | navigate (query : Option Int)
  /-- The request of the run at `index` succeeds. -/
  | succeeded (index : Nat) (data : TransactionsResponse)
  /-- The request of the run at `index` fails. -/
  | failed (index : Nat) (err : ApiError)
  /-- The component is taken down. -/
  | unmount

namespace TransactionsState

/-- The cleanup of the last run. -/
def cleanup (s : TransactionsState) : TransactionsState :=
  match s.runs with
  | [] => s
  | run :: rest => { s with runs := { run with cancelled := true } :: rest }

/-- The effect, up to the `await` of `loadTransactions`. -/
def loadTransactions (s : TransactionsState) : TransactionsState :=
  { s with
    error := []
    loading := true
    runs := ⟨s.currentPage, false, none⟩ :: s.runs }

/-- `loadTransactions` of the run at `index` after its `await`. -/
def settle (s : TransactionsState) (index : Nat)
    (outcome : Except ApiError TransactionsResponse) : Option TransactionsState :=
  match s.runs[index]? with
  | none => none
  | some run =>
      if run.outcome.isSome then none
      else
        let settled :=
          { s with runs := s.runs.set index { run with outcome := some outcome } }
        if run.cancelled then some settled
        else
          match outcome with
          | .ok data =>
              some { settled with
                transactions := data.transactions.getD []
                totalPages := data.totalPages.getD 1
                loading := false }
          | .error err =>
              some { settled with
                error := getErrorMessage err
                transactions := []
                totalPages := 1
                loading := false }

/-- One event. -/
def step (s : TransactionsState) : TransactionsEvent → Option TransactionsState
  | .navigate query =>
      if s.mounted then
        -- The effect depends on the number only.
        if numberOr query 1 = s.currentPage then some s
        else some ({ s.cleanup with currentPage := numberOr query 1 }).loadTransactions
      else none
  | .succeeded index data => s.settle index (.ok data)
  | .failed index err => s.settle index (.error err)
  | .unmount => if s.mounted then some { s.cleanup with mounted := false } else none

/-- The mounted hook: its initial state, and the effect has sent the first request. -/
def mount (query : Option Int) : TransactionsState :=
  loadTransactions
    { transactions := []
      totalPages := 1
      loading := true
      error := []
      currentPage := numberOr query 1
      mounted := true
      runs := [] }

end TransactionsState

/-- `useTransactions` under the events that can happen to it. -/
def useTransactions : Machine TransactionsState TransactionsEvent where
  start s := ∃ query, s = TransactionsState.mount query
  step := TransactionsState.step

/-! ## What is shown -/

namespace TransactionsState

/-- What the component shows of the state. -/
def shown (s : TransactionsState) : List Transaction × Nat × Bool × JsString :=
  (s.transactions, s.totalPages, s.loading, s.error)

/-- The component shows what came of a request, or that it waits for it. -/
def Shows (s : TransactionsState) : Option (Except ApiError TransactionsResponse) → Prop
  | none => s.loading = true ∧ s.error = []
  | some (.ok data) =>
      s.shown = (data.transactions.getD [], data.totalPages.getD 1, false, [])
  | some (.error err) => s.shown = ([], 1, false, getErrorMessage err)

/-- Only the last run is alive, it is of the page in the address, and the component shows what
came of it; once the component is gone all runs are cancelled. -/
structure IsCurrent (s : TransactionsState) (run : EffectRun) (rest : List EffectRun) : Prop where
  runs : s.runs = run :: rest
  page : run.page = s.currentPage
  rest : ∀ r ∈ rest, r.cancelled = true
  cancelled : run.cancelled = !s.mounted
  shows : s.mounted = true → s.Shows run.outcome

variable {s s' : TransactionsState} {run : EffectRun} {rest : List EffectRun}

/-- The last run after its cleanup. -/
theorem cleanup_eq (h : s.runs = run :: rest) :
    s.cleanup = { s with runs := { run with cancelled := true } :: rest } := by
  rw [cleanup, h]

/-- A late response changes nothing that is shown. -/
theorem settle_cancelled {index : Nat} {outcome : Except ApiError TransactionsResponse}
    (hrun : s.runs[index]? = some run) (hcancelled : run.cancelled = true)
    (hsettle : s.settle index outcome = some s') :
    s' = { s with runs := s.runs.set index { run with outcome := some outcome } } := by
  simp only [settle, hrun] at hsettle
  split at hsettle
  · cases hsettle
  · exact (Option.some.inj hsettle).symm

/-- The response of the run that is alive is shown. -/
theorem settle_current {index : Nat} {outcome : Except ApiError TransactionsResponse}
    (hrun : s.runs[index]? = some run) (hcancelled : run.cancelled = false)
    (hshows : s.Shows run.outcome) (hsettle : s.settle index outcome = some s') :
    s'.Shows (some outcome) ∧ s'.currentPage = s.currentPage ∧ s'.mounted = s.mounted ∧
      s'.runs = s.runs.set index { run with outcome := some outcome } := by
  simp only [settle, hrun] at hsettle
  split at hsettle
  · cases hsettle
  · rename_i hpending
    rw [if_neg (by rw [hcancelled]; decide)] at hsettle
    rw [Option.not_isSome_iff_eq_none] at hpending
    rw [hpending] at hshows
    cases outcome with
    | ok data =>
        obtain rfl := Option.some.inj hsettle
        exact ⟨by rw [Shows, shown, hshows.2], rfl, rfl, rfl⟩
    | error err =>
        obtain rfl := Option.some.inj hsettle
        exact ⟨rfl, rfl, rfl, rfl⟩

/-- A response keeps the last run the only one that is alive. -/
theorem IsCurrent.settle (h : s.IsCurrent run rest) {index : Nat}
    {outcome : Except ApiError TransactionsResponse}
    (hsettle : s.settle index outcome = some s') : ∃ run rest, s'.IsCurrent run rest := by
  obtain ⟨r, hr⟩ : ∃ r, s.runs[index]? = some r := by
    cases hr : s.runs[index]? with
    | none => rw [TransactionsState.settle, hr] at hsettle; cases hsettle
    | some r => exact ⟨r, rfl⟩
  cases index with
  | zero =>
      obtain rfl : run = r := by
        rw [h.runs] at hr
        exact Option.some.inj hr
      have hruns : s.runs.set 0 { run with outcome := some outcome } =
          { run with outcome := some outcome } :: rest := by
        rw [h.runs, List.set_cons_zero]
      cases hm : s.mounted with
      | true =>
          have hcancelled : run.cancelled = false := by rw [h.cancelled, hm]; rfl
          obtain ⟨hshows, hpage, hmounted, hset⟩ :=
            settle_current hr hcancelled (h.shows hm) hsettle
          exact ⟨_, rest, hset.trans hruns, h.page.trans hpage.symm, h.rest,
            by rw [hmounted]; exact h.cancelled, fun _ => hshows⟩
      | false =>
          have hcancelled : run.cancelled = true := by rw [h.cancelled, hm]; rfl
          obtain rfl := settle_cancelled hr hcancelled hsettle
          exact ⟨_, rest, hruns, h.page, h.rest, h.cancelled,
            fun hmounted => absurd (hmounted.symm.trans hm) (by decide)⟩
  | succ index =>
      rw [h.runs, List.getElem?_cons_succ] at hr
      have hcancelled := h.rest r (List.mem_of_getElem? hr)
      obtain rfl := settle_cancelled (by rw [h.runs]; exact hr) hcancelled hsettle
      refine ⟨run, rest.set index { r with outcome := some outcome },
        by rw [h.runs]; rfl, h.page, fun q hq => ?_, h.cancelled, h.shows⟩
      rcases List.mem_or_eq_of_mem_set hq with hq | rfl
      · exact h.rest q hq
      · exact hcancelled

/-- An event keeps the last run the only one that is alive. -/
theorem IsCurrent.step (h : s.IsCurrent run rest) {e : TransactionsEvent}
    (hstep : s.step e = some s') : ∃ run rest, s'.IsCurrent run rest := by
  cases e with
  | navigate query =>
      simp only [TransactionsState.step] at hstep
      split at hstep
      · rename_i hmounted
        split at hstep
        · obtain rfl := Option.some.inj hstep
          exact ⟨run, rest, h⟩
        · obtain rfl := Option.some.inj hstep
          rw [cleanup_eq h.runs]
          refine ⟨_, _, rfl, rfl, ?_, ?_, fun _ => ⟨rfl, rfl⟩⟩
          · exact List.forall_mem_cons.mpr ⟨rfl, h.rest⟩
          · change false = !s.mounted
            rw [hmounted]
            rfl
      · cases hstep
  | succeeded index data => exact h.settle hstep
  | failed index err => exact h.settle hstep
  | unmount =>
      simp only [TransactionsState.step] at hstep
      split at hstep
      · obtain rfl := Option.some.inj hstep
        rw [cleanup_eq h.runs]
        exact ⟨_, rest, rfl, h.page, h.rest, rfl, nofun⟩
      · cases hstep

/-- What is shown does not change any more once the component is gone. -/
theorem IsCurrent.shown_eq (h : s.IsCurrent run rest) (hgone : s.mounted = false)
    {e : TransactionsEvent} (hstep : s.step e = some s') :
    s'.shown = s.shown ∧ s'.mounted = false := by
  have hsettle : ∀ index outcome, s.settle index outcome = some s' →
      s'.shown = s.shown ∧ s'.mounted = false := by
    intro index outcome hsettle
    cases hr : s.runs[index]? with
    | none => rw [TransactionsState.settle, hr] at hsettle; cases hsettle
    | some r =>
        have hmem := List.mem_of_getElem? hr
        have hcancelled : r.cancelled = true := by
          rw [h.runs] at hmem
          rcases List.mem_cons.mp hmem with rfl | hmem
          · rw [h.cancelled, hgone]
            rfl
          · exact h.rest r hmem
        obtain rfl := settle_cancelled hr hcancelled hsettle
        exact ⟨rfl, hgone⟩
  cases e with
  | navigate query => simp [TransactionsState.step, hgone] at hstep
  | succeeded index data => exact hsettle index _ hstep
  | failed index err => exact hsettle index _ hstep
  | unmount => simp [TransactionsState.step, hgone] at hstep

end TransactionsState

open TransactionsState

/-- Of every state one run of the effect is the last. -/
theorem isCurrent_of_reached {s : TransactionsState} (h : useTransactions.Reached s) :
    ∃ run rest, s.IsCurrent run rest := by
  refine Machine.ReachedBy.invariant (I := fun s => ∃ run rest, s.IsCurrent run rest) ?_ ?_ h
  · rintro s ⟨query, rfl⟩
    exact ⟨_, [], rfl, rfl, nofun, rfl, fun _ => ⟨rfl, rfl⟩⟩
  · rintro s a s' ⟨run, rest, hcurrent⟩ - hstep
    exact hcurrent.step hstep

/-- **The list is of the page in the address**, in whatever order the responses come: while the
component is there it shows what came of the request for that page, or that it waits for it, and
every other run is cancelled; once it is gone, what it showed stays. -/
theorem useTransactions_shows_the_current_page {s : TransactionsState}
    (h : useTransactions.Reached s) :
    (s.mounted = true → ∃ run rest, s.runs = run :: rest ∧ run.page = s.currentPage ∧
      s.Shows run.outcome ∧ ∀ r ∈ rest, r.cancelled = true) ∧
    (s.mounted = false → ∀ events s', useTransactions.run s events = some s' →
      s'.shown = s.shown) := by
  constructor
  · intro hm
    obtain ⟨run, rest, hcurrent⟩ := isCurrent_of_reached h
    exact ⟨run, rest, hcurrent.runs, hcurrent.page, hcurrent.shows hm, hcurrent.rest⟩
  · intro hgone events s' hrun
    induction events generalizing s with
    | nil => rw [← Option.some.inj hrun]
    | cons e events ih =>
        obtain ⟨t, hstep, hrest⟩ := Machine.exists_step_of_run_cons hrun
        obtain ⟨run, rest, hcurrent⟩ := isCurrent_of_reached h
        obtain ⟨hshown, hgone'⟩ := hcurrent.shown_eq hgone hstep
        rw [ih (.step h trivial hstep) hgone' hrest, hshown]

/-- The first page comes after the second one, and is not shown. -/
theorem useTransactions_shows_the_current_page_sample :
    ∃ s : TransactionsState, s.currentPage = 2 ∧ s.shown = ([], 2, false, []) ∧
      ∃ run rest, s.runs = run :: rest ∧ run.page = s.currentPage ∧ s.Shows run.outcome := by
  have hrun : (useTransactions.run (TransactionsState.mount (some 1))
      [.navigate (some 2), .succeeded 0 ⟨some [], some 2⟩, .succeeded 1 ⟨none, some 9⟩]).map
        (fun s => (s.currentPage, s.mounted, s.shown)) = some (2, true, [], 2, false, []) := rfl
  have hmount : useTransactions.Reached (TransactionsState.mount (some 1)) := .start ⟨some 1, rfl⟩
  obtain ⟨s, hreached, hshown⟩ := hmount.run_map hrun
  obtain ⟨hpage, hrest⟩ := Prod.mk.inj hshown
  obtain ⟨hmounted, hlist⟩ := Prod.mk.inj hrest
  obtain ⟨run, rest, hruns, hcurrent, hshows, -⟩ :=
    (useTransactions_shows_the_current_page hreached).1 hmounted
  exact ⟨s, hpage, hlist, run, rest, hruns, hcurrent, hshows⟩

end Client
end InfinityLabs
