import InfinityLabs.Lib.Pages
import InfinityLabs.Server.TransferLedger

/-!
# The pages of the transaction history

`getTransactions` with `findTransactionsByUserEmail` of `transaction.service.js`, while transfers
go on.  The service awaits two queries, the rows of a page and their number; a transfer may commit
before, between and behind them.  A transaction gets its `createdAt` when it is made and its place
in the collection when it is committed, so that a new one may come anywhere in the history.

What `sort({ createdAt: -1 })` says of rows of the same time is nothing: each query may have them in
another order.
-/

namespace InfinityLabs
namespace Server

open Lib

/-- `Number(query) || default`; `none` is `NaN`. -/
def numberOr (query : Option Int) (default : Int) : Int :=
  match query with
  | none => default
  | some n => if n = 0 then default else n

/-- `transactionsForUserQuery`. -/
def transactionsForUserQuery (userEmail : JsString) (t : Transaction) : Bool :=
  t.fromEmail == userEmail || t.toEmail == userEmail

/-- `Transaction.find(query)`. -/
def transactionsOf (userEmail : JsString) (db : Db) : List Transaction :=
  db.transactions.filter (transactionsForUserQuery userEmail)

/-- The rows after `sort({ createdAt: -1 })`. -/
def IsNewestFirst (createdAt : Transaction → Nat) (rows sorted : List Transaction) : Prop :=
  sorted.Perm rows ∧ sorted.Pairwise fun a b => createdAt b ≤ createdAt a

instance (createdAt : Transaction → Nat) (rows sorted : List Transaction) :
    Decidable (IsNewestFirst createdAt rows sorted) :=
  inferInstanceAs (Decidable (_ ∧ _))

/-- What the two queries of a request came to. -/
structure PageLoad where
  sorted : List Transaction
  total : Nat
  deriving DecidableEq

/-- The transfers, the request that is going on, and those before it. -/
structure Browsing where
  bank : TransferState
  found : Option (List Transaction)
  counted : Option Nat
  loads : List PageLoad

/-- What happens next: a step of the transfers, one of the queries of the request, or its
response, after which the next page is asked for. -/
inductive BrowseAction where
  | transfer (a : TransferAction)
  | find (sorted : List Transaction)
  | count
  | respond

section Browse

variable (toLowerCase : JsString → JsString) (createdAt : Transaction → Nat) (userEmail : JsString)

/-- One step of the bank or of the request. -/
def Browsing.step (s : Browsing) : BrowseAction → Option Browsing
  | .transfer a => (s.bank.step toLowerCase a).map fun bank => { s with bank }
  | .find sorted =>
      if s.found = none ∧ IsNewestFirst createdAt (transactionsOf userEmail s.bank.db) sorted then
        some { s with found := some sorted }
      else none
  | .count =>
      if s.counted = none then
        some { s with counted := some (transactionsOf userEmail s.bank.db).length }
      else none
  | .respond =>
      match s.found, s.counted with
      | some sorted, some total =>
          some { s with found := none, counted := none, loads := s.loads ++ [⟨sorted, total⟩] }
      | _, _ => none

end Browse

/-! ## What the queries have found -/

variable {toLowerCase : JsString → JsString} {createdAt : Transaction → Nat}
  {userEmail : JsString}

/-- The ledger only grows. -/
theorem ledger_grows {s s' : TransferState} {a : TransferAction}
    (hstep : s.step toLowerCase a = some s') : s.db.transactions <+: s'.db.transactions := by
  cases step_effect hstep with
  | keepsDb hdb hcalls => rw [hdb]
  | commits hmem hphase hcommit hcalls =>
      obtain ⟨-, -, hdb⟩ := commitSession_eq_some hcommit
      rw [hdb]
      exact List.prefix_append _ _

/-- What the queries for rows have found, first to last. -/
def Browsing.history (s : Browsing) : List (List Transaction) :=
  s.loads.map PageLoad.sorted ++ s.found.toList

/-- The queries found the rows newest first, each at least what those before it had found, and
what is in the ledger now is at least that. -/
structure BrowseInv (createdAt : Transaction → Nat) (userEmail : JsString) (s : Browsing) :
    Prop where
  ordered : ∀ l ∈ s.history, l.Pairwise fun a b => createdAt b ≤ createdAt a
  grows : (s.history ++ [transactionsOf userEmail s.bank.db]).Pairwise List.Subperm

/-- A step keeps what the queries have found. -/
theorem BrowseInv.step {s s' : Browsing} {a : BrowseAction} (h : BrowseInv createdAt userEmail s)
    (hstep : s.step toLowerCase createdAt userEmail a = some s') :
    BrowseInv createdAt userEmail s' := by
  obtain ⟨hbefore, -, hnow⟩ := List.pairwise_append.mp h.grows
  cases a with
  | transfer a =>
      obtain ⟨bank, hbank, rfl⟩ := Option.map_eq_some_iff.mp hstep
      refine ⟨h.ordered, List.pairwise_append.mpr ⟨hbefore, List.pairwise_singleton _ _, ?_⟩⟩
      intro l hl rows hrows
      obtain rfl := List.mem_singleton.mp hrows
      exact (hnow l hl _ List.mem_cons_self).trans
        ((ledger_grows hbank).sublist.filter _).subperm
  | find sorted =>
      simp only [Browsing.step] at hstep
      split at hstep
      · rename_i hfind
        obtain ⟨hnone, hperm, hordered⟩ := hfind
        obtain rfl := Option.some.inj hstep
        have hhistory : Browsing.history { s with found := some sorted } =
            s.history ++ [sorted] := by
          simp only [Browsing.history, hnone, Option.toList_none, List.append_nil,
            Option.toList_some]
        refine ⟨?_, ?_⟩
        · rw [hhistory]
          intro l hl
          rcases List.mem_append.mp hl with hl | hl
          · exact h.ordered l hl
          · rwa [List.mem_singleton.mp hl]
        · rw [hhistory]
          refine List.pairwise_append.mpr ⟨List.pairwise_append.mpr
            ⟨hbefore, List.pairwise_singleton _ _, ?_⟩, List.pairwise_singleton _ _, ?_⟩
          · intro l hl f hf
            obtain rfl := List.mem_singleton.mp hf
            exact (hnow l hl _ List.mem_cons_self).trans hperm.symm.subperm
          · intro l hl rows hrows
            obtain rfl := List.mem_singleton.mp hrows
            rcases List.mem_append.mp hl with hl | hl
            · exact hnow l hl _ List.mem_cons_self
            · rw [List.mem_singleton.mp hl]
              exact hperm.subperm
      · cases hstep
  | count =>
      simp only [Browsing.step] at hstep
      split at hstep
      · obtain rfl := Option.some.inj hstep
        exact ⟨h.ordered, h.grows⟩
      · cases hstep
  | respond =>
      simp only [Browsing.step] at hstep
      split at hstep
      · rename_i sorted total hfound hcounted
        obtain rfl := Option.some.inj hstep
        have hhistory : Browsing.history
            { s with found := none, counted := none, loads := s.loads ++ [⟨sorted, total⟩] } =
              s.history := by
          simp only [Browsing.history, hfound, List.map_append, List.map_cons, List.map_nil,
            Option.toList_none, List.append_nil, Option.toList_some]
        exact ⟨by rw [hhistory]; exact h.ordered, by rw [hhistory]; exact h.grows⟩
      · cases hstep

end Server
end InfinityLabs
