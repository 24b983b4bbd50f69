import Mathlib.Algebra.BigOperators.Group.Finset.Basic
import Mathlib.Algebra.BigOperators.Group.Finset.Piecewise
import Mathlib.Algebra.Order.Group.Defs
import Mathlib.Tactic.Abel
import InfinityLabs.Lib.Runs

/-!
# Double-entry books

Books hold a balance for every account and the list of entries posted so far.
An entry moves an amount from one account to another.  The module proves once,
over any type of accounts and any ordered group of amounts, what posting
preserves: the total, non-negative balances, and the statement of every
account (opening balance plus what was credited minus what was debited).
-/

namespace InfinityLabs
namespace Lib

universe u v

/-- One entry of the books: `amount` moves from `source` to `target`. -/
structure Entry (α : Type u) (M : Type v) where
  id : Nat
  source : α
  target : α
  amount : M

/-- Balances together with the entries posted so far, the oldest first. -/
structure Books (α : Type u) (M : Type v) where
  balance : α → M
  entries : List (Entry α M)

namespace Books

variable {α : Type u} {M : Type v} [DecidableEq α] [AddCommGroup M]

/-- Books with the given opening balances and no entry. -/
def opening (balance : α → M) : Books α M :=
  { balance := balance, entries := [] }

/-- Post one entry: debit the source, credit the target, file the entry. -/
def post (b : Books α M) (e : Entry α M) : Books α M where
  balance x :=
    b.balance x - (if x = e.source then e.amount else 0) +
      (if x = e.target then e.amount else 0)
  entries := b.entries ++ [e]

/-- What the entries move into an account. -/
def credited (entries : List (Entry α M)) (x : α) : M :=
  (entries.map fun e => if e.target = x then e.amount else 0).sum

/-- What the entries move out of an account. -/
def debited (entries : List (Entry α M)) (x : α) : M :=
  (entries.map fun e => if e.source = x then e.amount else 0).sum

@[simp] theorem credited_snoc (entries : List (Entry α M)) (e : Entry α M) (x : α) :
    credited (entries ++ [e]) x =
      credited entries x + if e.target = x then e.amount else 0 := by
  simp [credited]

@[simp] theorem debited_snoc (entries : List (Entry α M)) (e : Entry α M) (x : α) :
    debited (entries ++ [e]) x =
      debited entries x + if e.source = x then e.amount else 0 := by
  simp [debited]

/-- Posting between two of the accounts keeps their total. -/
theorem sum_post (accounts : Finset α) (b : Books α M) {e : Entry α M}
    (hsource : e.source ∈ accounts) (htarget : e.target ∈ accounts) :
    ∑ x ∈ accounts, (b.post e).balance x = ∑ x ∈ accounts, b.balance x := by
  simp only [post, Finset.sum_add_distrib, Finset.sum_sub_distrib,
    Finset.sum_ite_eq', hsource, htarget, if_true, sub_add_cancel]

section Ordered

variable [LinearOrder M] [IsOrderedAddMonoid M]

/-- The entry moves a non-negative amount that its source can pay, between two
of the accounts, under an id that no entry has. -/
structure Admissible (accounts : Finset α) (b : Books α M) (e : Entry α M) :
    Prop where
  source_mem : e.source ∈ accounts
  target_mem : e.target ∈ accounts
  amount_nonneg : 0 ≤ e.amount
  covered : e.amount ≤ b.balance e.source
  fresh : e.id ∉ b.entries.map Entry.id

/-- What sound books satisfy, relative to their opening balances. -/
structure Sound (accounts : Finset α) (balance₀ : α → M) (b : Books α M) :
    Prop where
  total : ∑ x ∈ accounts, b.balance x = ∑ x ∈ accounts, balance₀ x
  nonneg : ∀ x ∈ accounts, 0 ≤ b.balance x
  statement : ∀ x, b.balance x =
    balance₀ x + credited b.entries x - debited b.entries x
  ids_nodup : (b.entries.map Entry.id).Nodup

omit [IsOrderedAddMonoid M] in
/-- Freshly opened books with non-negative balances are sound. -/
theorem sound_opening {accounts : Finset α} {balance₀ : α → M}
    (hnonneg : ∀ x ∈ accounts, 0 ≤ balance₀ x) :
    Sound accounts balance₀ (opening balance₀) where
  total := rfl
  nonneg := hnonneg
  statement x := by simp [opening, credited, debited]
  ids_nodup := by simp [opening]

/-- Posting an admissible entry keeps the books sound. -/
theorem Sound.post {accounts : Finset α} {balance₀ : α → M} {b : Books α M}
    (h : Sound accounts balance₀ b) {e : Entry α M}
    (he : Admissible accounts b e) : Sound accounts balance₀ (b.post e) where
  total := (sum_post accounts b he.source_mem he.target_mem).trans h.total
  nonneg := by
    intro x hx
    have hdebit : 0 ≤ b.balance x - if x = e.source then e.amount else 0 := by
      by_cases hsource : x = e.source
      · subst hsource
        simpa using he.covered
      · simpa [hsource] using h.nonneg x hx
    have hcredit : 0 ≤ if x = e.target then e.amount else 0 := by
      split
      · exact he.amount_nonneg
      · exact le_refl 0
    exact add_nonneg hdebit hcredit
  statement := by
    intro x
    simp only [Books.post, credited_snoc, debited_snoc, h.statement x,
      eq_comm (a := x)]
    abel
  ids_nodup := by
    have hfresh : ∀ e' ∈ b.entries, e'.id ≠ e.id :=
      fun e' he' hid => he.fresh (hid ▸ List.mem_map_of_mem he')
    simp only [Books.post, List.map_append, List.map_cons, List.map_nil,
      List.nodup_append, List.nodup_singleton, true_and, h.ids_nodup]
    simpa using hfresh

/-- The machine of books that post admissible entries only. -/
def machine (accounts : Finset α) (balance₀ : α → M) [DecidableEq M] :
    Machine (Books α M) (Entry α M) where
  start b := b = opening balance₀
  step b e :=
    if e.source ∈ accounts ∧ e.target ∈ accounts ∧ 0 ≤ e.amount ∧
        e.amount ≤ b.balance e.source ∧ e.id ∉ b.entries.map Entry.id then
      some (b.post e)
    else none

omit [IsOrderedAddMonoid M] in
theorem machine_step_of_admissible [DecidableEq M] {accounts : Finset α}
    {balance₀ : α → M} {b : Books α M} {e : Entry α M}
    (he : Admissible accounts b e) :
    (machine accounts balance₀).step b e = some (b.post e) :=
  if_pos ⟨he.source_mem, he.target_mem, he.amount_nonneg, he.covered, he.fresh⟩

/-- Books stay sound along every run of admissible postings. -/
theorem sound_of_reached [DecidableEq M] {accounts : Finset α}
    {balance₀ : α → M} (hnonneg : ∀ x ∈ accounts, 0 ≤ balance₀ x)
    {b : Books α M} (h : (machine accounts balance₀).Reached b) :
    Sound accounts balance₀ b := by
  refine h.invariant ?_ ?_
  · rintro _ rfl
    exact sound_opening hnonneg
  · intro b e b' hsound _ hstep
    simp only [machine] at hstep
    split at hstep
    · rename_i hadmissible
      cases hstep
      obtain ⟨hs, ht, ha, hc, hf⟩ := hadmissible
      exact hsound.post ⟨hs, ht, ha, hc, hf⟩
    · cases hstep

end Ordered
end Books
end Lib
end InfinityLabs
