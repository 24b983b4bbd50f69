import Mathlib.Algebra.BigOperators.Group.List.Basic
import Mathlib.Tactic.Common

/-!
# Chains of blocks

A region that is cut into blocks, each of them a header and a payload.  The header of a
block tells the length of its payload as a signed number, whose sign is a mark: the
negative ones are used.  What it means for a header to tell a size is a parameter.
-/

namespace InfinityLabs
namespace Lib

/-- The length of a sequence of blocks with headers of `headerSize`. -/
def extent (headerSize : Nat) : List Int → Nat
  | [] => 0
  | size :: blocks => headerSize + size.natAbs + extent headerSize blocks

/-- From `a` the headers lead from block to block, and exactly to `c`. -/
def Chain (headerSize : Nat) (tells : Nat → Int → Prop) : Nat → List Int → Nat → Prop
  | a, [], c => a = c
  | a, size :: blocks, c =>
      tells a size ∧ Chain headerSize tells (a + headerSize + size.natAbs) blocks c

/-- The payloads of the used blocks from `a` on: where they begin, and their lengths. -/
def used (headerSize : Nat) : Nat → List Int → List (Nat × Nat)
  | _, [] => []
  | a, size :: blocks =>
      (if size < 0 then [(a + headerSize, size.natAbs)] else []) ++
        used headerSize (a + headerSize + size.natAbs) blocks

variable {headerSize : Nat} {tells tells' : Nat → Int → Prop} {a c : Nat}
  {blocks blocks' : List Int}

/-! ## Lengths -/

/-- The length of two sequences. -/
theorem extent_append (blocks blocks' : List Int) :
    extent headerSize (blocks ++ blocks') =
      extent headerSize blocks + extent headerSize blocks' := by
  induction blocks with
  | nil => exact (Nat.zero_add _).symm
  | cons size blocks ih =>
      rw [List.cons_append, extent, extent, ih]
      omega

/-- The length of one block. -/
theorem extent_singleton (size : Int) : extent headerSize [size] = headerSize + size.natAbs := rfl

/-! ## Chains -/

/-- A chain ends behind its blocks. -/
theorem Chain.end_eq (h : Chain headerSize tells a blocks c) :
    c = a + extent headerSize blocks := by
  induction blocks generalizing a with
  | nil => exact h.symm
  | cons size blocks ih =>
      rw [ih h.2, extent]
      omega

/-- A chain in two parts. -/
theorem chain_append :
    Chain headerSize tells a (blocks ++ blocks') c ↔
      Chain headerSize tells a blocks (a + extent headerSize blocks) ∧
        Chain headerSize tells (a + extent headerSize blocks) blocks' c := by
  induction blocks generalizing a with
  | nil => exact (and_iff_right rfl).symm
  | cons size blocks ih =>
      have hnext : a + extent headerSize (size :: blocks) =
          a + headerSize + size.natAbs + extent headerSize blocks := by
        rw [extent]
        omega
      rw [List.cons_append, Chain, Chain, ih, hnext, and_assoc]

/-- The header of a block in a chain. -/
theorem Chain.tells_middle {before after : List Int} {size : Int}
    (h : Chain headerSize tells a (before ++ [size] ++ after) c) :
    tells (a + extent headerSize before) size := by
  rw [List.append_assoc, chain_append] at h
  exact h.2.1

/-- **The frame**: a chain depends on the headers inside it. -/
theorem Chain.frame (h : Chain headerSize tells a blocks c)
    (hsame : ∀ p size, a ≤ p → p + headerSize ≤ c → tells p size → tells' p size) :
    Chain headerSize tells' a blocks c := by
  induction blocks generalizing a with
  | nil => exact h
  | cons size blocks ih =>
      have hend := h.end_eq
      rw [extent] at hend
      refine ⟨hsame a size (Nat.le_refl a) (by omega) h.1, ih h.2 fun p size hp => ?_⟩
      exact hsame p size (by omega)

/-- A part of a chain in the place of another one of the same length. -/
theorem Chain.replace {before found found' after : List Int}
    (h : Chain headerSize tells a (before ++ found ++ after) c)
    (hfound : Chain headerSize tells' (a + extent headerSize before) found'
      (a + extent headerSize before + extent headerSize found))
    (hsame : ∀ p size, p + headerSize ≤ a + extent headerSize before ∨
      a + extent headerSize before + extent headerSize found ≤ p →
        tells p size → tells' p size) :
    Chain headerSize tells' a (before ++ found' ++ after) c := by
  have hlength : extent headerSize found' = extent headerSize found := by
    have hend := hfound.end_eq
    omega
  rw [List.append_assoc, chain_append, chain_append] at h ⊢
  obtain ⟨hbefore, -, hafter⟩ := h
  refine ⟨hbefore.frame fun p size _ hp => hsame p size (Or.inl hp), ?_, ?_⟩
  · rwa [hlength]
  · rw [hlength]
    exact hafter.frame fun p size hp _ => hsame p size (Or.inr hp)

/-! ## Used blocks -/

/-- The used blocks of two sequences. -/
theorem used_append (a : Nat) (blocks blocks' : List Int) :
    used headerSize a (blocks ++ blocks') =
      used headerSize a blocks ++ used headerSize (a + extent headerSize blocks) blocks' := by
  induction blocks generalizing a with
  | nil => rfl
  | cons size blocks ih =>
      have hnext : a + extent headerSize (size :: blocks) =
          a + headerSize + size.natAbs + extent headerSize blocks := by
        rw [extent]
        omega
      rw [List.cons_append, used, used, ih, hnext, List.append_assoc]

/-- One more used block, in the place of blocks that are not used. -/
theorem used_replace {before found found' : List Int} (after : List Int) {x : Nat × Nat}
    (hlength : extent headerSize found' = extent headerSize found)
    (hfound : used headerSize (a + extent headerSize before) found = [])
    (hfound' : used headerSize (a + extent headerSize before) found' = [x]) :
    (used headerSize a (before ++ found' ++ after)).Perm
      (x :: used headerSize a (before ++ found ++ after)) := by
  rw [List.append_assoc, List.append_assoc, used_append, used_append, used_append, used_append,
    hlength, hfound, hfound', List.nil_append, List.singleton_append]
  exact List.perm_middle

/-- Free blocks are not used. -/
theorem used_of_free (a : Nat) (hfree : ∀ size ∈ blocks, 0 < size) :
    used headerSize a blocks = [] := by
  induction blocks generalizing a with
  | nil => rfl
  | cons size blocks ih =>
      have hsize := hfree size List.mem_cons_self
      rw [used, if_neg (by omega), ih _ fun size' h => hfree size' (List.mem_cons_of_mem size h)]
      rfl

/-- Where no block is used there is no negative size. -/
theorem not_neg_of_used_eq_nil (hnone : used headerSize a blocks = []) :
    ∀ size ∈ blocks, ¬ size < 0 := by
  induction blocks generalizing a with
  | nil => simp
  | cons size blocks ih =>
      rw [used, List.append_eq_nil_iff] at hnone
      intro x hx hneg
      rcases List.mem_cons.mp hx with rfl | hx
      · simp [hneg] at hnone
      · exact ih hnone.2 x hx hneg

/-- A used block in its sequence. -/
theorem mem_used {p n : Nat} (h : (p, n) ∈ used headerSize a blocks) :
    ∃ before after, ∃ size : Int, blocks = before ++ [size] ++ after ∧ size < 0 ∧
      n = size.natAbs ∧ p = a + extent headerSize before + headerSize := by
  induction blocks generalizing a with
  | nil => cases h
  | cons size blocks ih =>
      rw [used, List.mem_append] at h
      rcases h with h | h
      · split at h
        · rename_i hneg
          obtain ⟨rfl, rfl⟩ := Prod.ext_iff.mp (List.mem_singleton.mp h)
          exact ⟨[], blocks, size, rfl, hneg, rfl, rfl⟩
        · cases h
      · obtain ⟨before, after, size', rfl, hneg, hn, hp⟩ := ih h
        refine ⟨size :: before, after, size', rfl, hneg, hn, ?_⟩
        rw [hp, extent]
        omega

/-- A used block is inside its sequence. -/
theorem used_inside {p n : Nat} (h : (p, n) ∈ used headerSize a blocks) :
    a + headerSize ≤ p ∧ p + n ≤ a + extent headerSize blocks := by
  obtain ⟨before, after, size, rfl, -, rfl, rfl⟩ := mem_used h
  rw [extent_append, extent_append, extent_singleton]
  omega

/-- The used blocks come one behind the other. -/
theorem used_pairwise (hheader : 0 < headerSize) (a : Nat) (blocks : List Int) :
    (used headerSize a blocks).Pairwise fun x y => x.1 + x.2 < y.1 := by
  induction blocks generalizing a with
  | nil => exact List.Pairwise.nil
  | cons size blocks ih =>
      rw [used]
      refine List.pairwise_append.mpr ⟨?_, ih _, fun x hx y hy => ?_⟩
      · split
        · exact List.pairwise_singleton _ _
        · exact List.Pairwise.nil
      · have hinside := (used_inside (p := y.1) (n := y.2) hy).1
        split at hx
        · rw [List.mem_singleton.mp hx]
          show a + headerSize + size.natAbs < y.1
          omega
        · cases hx

end Lib
end InfinityLabs
