import InfinityLabs.Lib.Comparator
import Mathlib.Tactic.Common

/-!
# Ordered runs

A list falls into ordered runs of one width, the last of which may be shorter.  Merging
neighbours doubles the width, until one run is left.
-/

namespace InfinityLabs
namespace Lib

variable {α : Type} {C : Comparator α}

/-- The list falls into ordered runs of width `w`; the last one may be shorter. -/
inductive InRuns (C : Comparator α) (w : Nat) : List α → Prop
  | last {l : List α} (hshort : l.length ≤ w) (hordered : C.Ordered l) : InRuns C w l
  | cons {a l : List α} (hwidth : a.length = w) (hordered : C.Ordered a)
      (hrest : InRuns C w l) : InRuns C w (a ++ l)

namespace InRuns

variable {w : Nat} {a l : List α}

/-- A list that is no longer than a run is a run. -/
theorem ordered (h : InRuns C w l) (hlength : l.length ≤ w) : C.Ordered l := by
  cases h with
  | last _ hordered => exact hordered
  | @cons a l hwidth hordered _ =>
      rw [List.length_append] at hlength
      obtain rfl : l = [] := List.length_eq_zero_iff.mp (by omega)
      rwa [List.append_nil]

/-- The first run. -/
theorem exists_head (h : InRuns C w l) : ∃ a r, l = a ++ r ∧ C.Ordered a ∧ InRuns C w r ∧
    (a.length = w ∨ a.length ≤ w ∧ r = []) := by
  cases h with
  | last hshort hordered =>
      refine ⟨l, [], by simp, hordered, .last (by simp) .nil, Or.inr ⟨hshort, rfl⟩⟩
  | @cons a r hwidth hordered hrest => exact ⟨a, r, rfl, hordered, hrest, Or.inl hwidth⟩

/-- An ordered list falls into runs of every width. -/
theorem of_ordered (hw : 0 < w) (hordered : C.Ordered l) : InRuns C w l := by
  induction hlength : l.length using Nat.strongRecOn generalizing l with
  | ind k ih =>
      by_cases hshort : l.length ≤ w
      case pos => exact .last hshort hordered
      case neg =>
        have hdrop : InRuns C w (l.drop w) := by
          apply ih (l.drop w).length _ _ rfl
          · rw [List.length_drop]
            omega
          · exact hordered.sublist (List.drop_sublist w l)
        rw [← List.take_append_drop w l]
        refine .cons (List.length_take_of_le (by omega)) ?_ hdrop
        exact hordered.sublist (List.take_sublist w l)

/-- Every list falls into runs of one element. -/
theorem one (l : List α) : InRuns C 1 l := by
  induction l with
  | nil => exact .last (Nat.zero_le 1) .nil
  | cons a l ih => exact .cons (List.length_singleton) (List.pairwise_singleton _ a) ih

end InRuns

/-! ## Passes over the runs -/

/-- Ordered lists are merged into an ordered one. -/
structure Merges (C : Comparator α) (merge : List α → List α → List α) : Prop where
  perm : ∀ a b, (merge a b).Perm (a ++ b)
  ordered : ∀ a b, C.Ordered a → C.Ordered b → C.Ordered (merge a b)

/-- What a loop does that merges the runs of a width two by two: `pass fuel arr i arr'` says that
it comes from the index `i` of `arr` to its end and leaves `arr'`. -/
structure PassLoop (merge : List α → List α → List α) (length w : Nat)
    (pass : Nat → List α → Nat → List α → Prop) : Prop where
  stop : ∀ {fuel i : Nat} {arr : List α}, i < length + w → length ≤ i + w →
    pass (fuel + 1) arr i arr
  next : ∀ {fuel : Nat} {l a b r arr' : List α}, length = (l ++ (a ++ (b ++ r))).length →
    a.length = w → b ≠ [] → (b.length = w ∨ b.length ≤ w ∧ r = []) →
    pass fuel (l ++ (merge a b ++ r)) (l.length + 2 * w) arr' →
    pass (fuel + 1) (l ++ (a ++ (b ++ r))) l.length arr'

/-- What a loop does that makes such passes, with twice the width each time. -/
structure PassesLoop (length : Nat) (pass : Nat → Nat → List α → Nat → List α → Prop)
    (passes : Nat → List α → Nat → List α → Prop) : Prop where
  stop : ∀ {fuel w : Nat} {arr : List α}, length ≤ w → passes (fuel + 1) arr w arr
  next : ∀ {fuel w : Nat} {arr arr' arr'' : List α}, w < length → pass w fuel arr 0 arr' →
    passes fuel arr' (2 * w) arr'' → passes (fuel + 1) arr w arr''

section Passes

variable {merge : List α → List α → List α} {length w : Nat} {l rest arr : List α}

/-- A pass doubles the width of the runs. -/
theorem PassLoop.exists_pass {pass : Nat → List α → Nat → List α → Prop}
    (h : PassLoop merge length w pass) (hmerge : Merges C merge) (hw : 0 < w)
    (hrest : InRuns C w rest) (hlength : length = (l ++ rest).length) :
    ∃ rest', rest'.Perm rest ∧ InRuns C (2 * w) rest' ∧
      ∀ fuel, rest.length < fuel → pass fuel (l ++ rest) l.length (l ++ rest') := by
  induction hk : rest.length using Nat.strongRecOn generalizing l rest with
  | ind k ih =>
  subst hk
  obtain ⟨a, r, rfl, ha, hr, haWidth⟩ := hrest.exists_head
  by_cases hnil : r = []
  case pos =>
    -- one run is left over
    subst hnil
    simp only [List.append_nil] at hlength ⊢
    rw [List.length_append] at hlength
    have haShort : a.length ≤ w := by omega
    refine ⟨a, .refl a, .last (by omega) ha, fun fuel hfuel => ?_⟩
    obtain ⟨fuel, rfl⟩ : ∃ k, fuel = k + 1 := ⟨fuel - 1, by omega⟩
    exact h.stop (by omega) (by omega)
  case neg =>
    have haLength : a.length = w := haWidth.resolve_right fun h => hnil h.2
    obtain ⟨b, r, rfl, hb, hr', hbWidth⟩ := hr.exists_head
    have hbNe : b ≠ [] := by
      rintro rfl
      rcases hbWidth with hb' | ⟨-, rfl⟩
      · rw [List.length_nil] at hb'
        omega
      · exact hnil rfl
    have hbPos := List.length_pos_iff.mpr hbNe
    have hmerged := hmerge.ordered a b ha hb
    have hperm := hmerge.perm a b
    have hpermLength := hperm.length_eq
    have hnext : ∀ {fuel : Nat} {arr' : List α}, pass fuel (l ++ (merge a b ++ r))
        (l.length + 2 * w) arr' → pass (fuel + 1) (l ++ (a ++ (b ++ r))) l.length arr' :=
      h.next hlength haLength hbNe hbWidth
    simp only [List.length_append] at hlength hpermLength ih ⊢
    by_cases hend : r = []
    case pos =>
      -- the last two runs
      subst hend
      simp only [List.append_nil] at hnext ⊢
      refine ⟨merge a b, hperm, .last (by omega) hmerged, fun fuel hfuel => ?_⟩
      obtain ⟨fuel, rfl⟩ : ∃ k, fuel = k + 2 := ⟨fuel - 2, by omega⟩
      rw [List.length_nil] at hlength
      exact hnext (h.stop (by omega) (by omega))
    case neg =>
      have hbLength : b.length = w := hbWidth.resolve_right fun h => hend h.2
      obtain ⟨rest', hpermRest, hruns, hpass⟩ :=
        ih r.length (by omega) (l := l ++ merge a b) hr' (by rw [List.length_append]; omega) rfl
      refine ⟨merge a b ++ rest', ?_, .cons (by omega) hmerged hruns, fun fuel hfuel => ?_⟩
      · rw [← List.append_assoc a]
        exact hperm.append hpermRest
      · obtain ⟨fuel, rfl⟩ : ∃ k, fuel = k + 1 := ⟨fuel - 1, by omega⟩
        have hrun := hpass fuel (by omega)
        rw [List.length_append, show l.length + (merge a b).length = l.length + 2 * w by omega,
          List.append_assoc, List.append_assoc] at hrun
        exact hnext hrun

/-- The passes leave one ordered run. -/
theorem PassesLoop.exists_passes {pass : Nat → Nat → List α → Nat → List α → Prop}
    {passes : Nat → List α → Nat → List α → Prop} (h : PassesLoop length pass passes)
    (hpass : ∀ w, 0 < w → w < length → PassLoop merge length w (pass w))
    (hmerge : Merges C merge) (hw : 0 < w) (hruns : InRuns C w arr)
    (hlength : length = arr.length) :
    ∃ arr', arr'.Perm arr ∧ C.Ordered arr' ∧
      ∀ fuel, 2 * length + 2 ≤ fuel + w → 0 < fuel → passes fuel arr w arr' := by
  induction hk : length - w using Nat.strongRecOn generalizing w arr with
  | ind k ih =>
  subst hk
  by_cases hdone : length ≤ w
  case pos =>
    refine ⟨arr, .refl arr, hruns.ordered (by omega), fun fuel _ hfuel => ?_⟩
    obtain ⟨fuel, rfl⟩ : ∃ k, fuel = k + 1 := ⟨fuel - 1, by omega⟩
    exact h.stop hdone
  case neg =>
    obtain ⟨arr₁, hperm, hruns₁, hrun⟩ :=
      (hpass w hw (by omega)).exists_pass hmerge hw (l := []) hruns (by simpa using hlength)
    have hlength₁ := hperm.length_eq
    obtain ⟨arr₂, hperm₂, hordered, hpasses⟩ :=
      ih (length - 2 * w) (by omega) (by omega) hruns₁ (by omega) rfl
    refine ⟨arr₂, hperm₂.trans hperm, hordered, fun fuel hfuel _ => ?_⟩
    obtain ⟨fuel, rfl⟩ : ∃ k, fuel = k + 1 := ⟨fuel - 1, by omega⟩
    exact h.next (by omega) (hrun fuel (by omega)) (hpasses fuel (by omega) (by omega))

end Passes

/-! ## Merges with a preference -/

/-- `merged` is in order and consists of the elements of `dest` and of `src`, those of each in
their order; an element of `src` comes before its equals of `dest`.  The flags are set on the
elements of `src`. -/
def MergedFirst (C : Comparator α) (dest src merged : List α) : Prop :=
  ∃ tagged : List (α × Bool), tagged.map Prod.fst = merged ∧
    (tagged.filter fun x => !x.2).map Prod.fst = dest ∧
    (tagged.filter fun x => x.2).map Prod.fst = src ∧
    tagged.Pairwise fun x y => C.cmp x.1 y.1 ≤ 0 ∧
      (x.2 = false → y.2 = true → C.cmp x.1 y.1 < 0)

namespace MergedFirst

variable {dest src merged low : List α} {x : α}

/-- The merge is in order. -/
theorem ordered (h : MergedFirst C dest src merged) : C.Ordered merged := by
  obtain ⟨tagged, rfl, -, -, horder⟩ := h
  exact List.pairwise_map.mpr (horder.imp And.left)

/-- The merge holds the elements of both lists. -/
theorem perm (h : MergedFirst C dest src merged) : merged.Perm (dest ++ src) := by
  obtain ⟨tagged, rfl, rfl, rfl, -⟩ := h
  rw [← List.map_append]
  refine List.Perm.map Prod.fst (List.Perm.symm (List.perm_append_comm.trans ?_))
  exact List.filter_append_perm (fun x => x.2) tagged

/-- Nothing comes to an ordered list. -/
theorem of_nil (h : C.Ordered dest) : MergedFirst C dest [] dest := by
  refine ⟨dest.map fun x => (x, false), ?_, ?_, ?_, ?_⟩
  · rw [List.map_map]
    exact List.map_id dest
  · rw [List.filter_eq_self.mpr (by simp), List.map_map]
    exact List.map_id dest
  · rw [List.filter_eq_nil_iff.mpr (by simp), List.map_nil]
  · refine List.pairwise_map.mpr (h.imp fun hle => ⟨hle, fun _ hflag => ?_⟩)
    cases hflag

/-- An element comes behind those that are below it, and the rest is merged. -/
theorem cons (h : MergedFirst C dest src merged) (hlowOrder : C.Ordered low)
    (hsrc : C.Ordered (x :: src)) (hlow : ∀ y ∈ low, C.cmp y x < 0)
    (hhigh : ∀ y ∈ dest, C.cmp x y ≤ 0) :
    MergedFirst C (low ++ dest) (x :: src) (low ++ x :: merged) := by
  obtain ⟨tagged, rfl, rfl, rfl, horder⟩ := h
  have hbehind : ∀ t ∈ tagged, C.cmp x t.1 ≤ 0 := by
    intro t ht
    cases hflag : t.2 with
    | false => exact hhigh t.1 (List.mem_map_of_mem (List.mem_filter.mpr ⟨ht, by simp [hflag]⟩))
    | true =>
        exact List.rel_of_pairwise_cons hsrc
          (List.mem_map_of_mem (List.mem_filter.mpr ⟨ht, hflag⟩))
  refine ⟨low.map (fun y => (y, false)) ++ (x, true) :: tagged, ?_, ?_, ?_, ?_⟩
  · rw [List.map_append, List.map_cons, List.map_map]
    exact congrArg (· ++ _) (List.map_id low)
  · rw [List.filter_append, List.filter_eq_self.mpr (by simp), List.filter_cons_of_neg (by simp),
      List.map_append, List.map_map]
    exact congrArg (· ++ _) (List.map_id low)
  · rw [List.filter_append, List.filter_eq_nil_iff.mpr (by simp), List.filter_cons_of_pos rfl]
    rfl
  · refine List.pairwise_append.mpr ⟨?_, List.pairwise_cons.mpr ⟨fun t ht => ?_, horder⟩, ?_⟩
    · refine List.pairwise_map.mpr (hlowOrder.imp fun hle => ⟨hle, fun _ hflag => ?_⟩)
      cases hflag
    · exact ⟨hbehind t ht, fun hflag => absurd hflag (by simp)⟩
    · intro t ht u hu
      obtain ⟨y, hy, rfl⟩ := List.mem_map.mp ht
      have hstrict : C.cmp y u.1 < 0 := by
        rcases List.mem_cons.mp hu with rfl | hu
        · exact hlow y hy
        · exact Comparator.lt_of_lt_of_le (hlow y hy) (hbehind u hu)
      exact ⟨Int.le_of_lt hstrict, fun _ _ => hstrict⟩

end MergedFirst

end Lib
end InfinityLabs
