import Mathlib.Data.Finset.Card
import Mathlib.Logic.Relation

/-!
# Ranks of an acyclic relation

A relation has no cycle where every step leads to a lower rank, and a relation that leads into a
finite set has such ranks if it has no cycle: the rank of an element is the number of elements
that it leads to.
-/

namespace InfinityLabs
namespace Lib

universe u

variable {α : Type u}

/-- Every step leads to a lower rank. -/
def Ranks (rank : α → Nat) (r : α → α → Prop) : Prop := ∀ a b, r a b → rank b < rank a

/-- No element leads back to itself. -/
def Acyclic (r : α → α → Prop) : Prop := ∀ a, ¬ Relation.TransGen r a a

variable {r : α → α → Prop}

/-- A path leads to a lower rank as well. -/
theorem Ranks.lt_of_transGen {rank : α → Nat} (h : Ranks rank r) {a b : α}
    (hpath : Relation.TransGen r a b) : rank b < rank a := by
  induction hpath with
  | single hstep => exact h _ _ hstep
  | tail _ hstep ih => exact Nat.lt_trans (h _ _ hstep) ih

theorem Ranks.acyclic {rank : α → Nat} (h : Ranks rank r) : Acyclic r := fun a hcycle =>
  Nat.lt_irrefl (rank a) (h.lt_of_transGen hcycle)

/-- An acyclic relation into a finite set has ranks. -/
theorem Acyclic.exists_ranks (h : Acyclic r) (targets : Finset α)
    (hrange : ∀ a b, r a b → b ∈ targets) : ∃ rank, Ranks rank r := by
  classical
  refine ⟨fun a => (targets.filter (Relation.TransGen r a)).card, ?_⟩
  intro a b hstep
  refine Finset.card_lt_card (Finset.ssubset_iff_of_subset ?_ |>.mpr ⟨b, ?_, ?_⟩)
  · intro c hc
    rw [Finset.mem_filter] at hc ⊢
    exact ⟨hc.1, Relation.TransGen.head hstep hc.2⟩
  · exact Finset.mem_filter.mpr ⟨hrange a b hstep, Relation.TransGen.single hstep⟩
  · intro hb
    exact h b (Finset.mem_filter.mp hb).2

/-- An induction from the higher ranks down, where the ranks are bounded. -/
theorem Ranks.induction_down {rank : α → Nat} (h : Ranks rank r) {N : Nat} {P Q : α → Prop}
    (hbound : ∀ a, P a → rank a ≤ N)
    (hstep : ∀ b, P b → (∀ a, P a → r a b → Q a) → Q b) {b : α} (hb : P b) : Q b := by
  induction hn : N - rank b using Nat.strong_induction_on generalizing b with
  | _ n ih =>
      refine hstep b hb fun a ha hab => ih (N - rank a) ?_ ha rfl
      have hlt := h a b hab
      have hle := hbound a ha
      omega

end Lib
end InfinityLabs
