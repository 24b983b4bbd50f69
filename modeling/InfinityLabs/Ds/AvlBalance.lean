import InfinityLabs.Ds.AvlSet

/-!
# The balance of an AVL tree

`InsertRec` and `RemoveRec` rebalance each node on their way back.  `PopMin`, which takes
the successor out of the right subtree of a removed node, repairs heights only.  So an
insertion keeps every node balanced, and a removal does so exactly if `PopMin` leaves no
node of the path to the successor with a left subtree that is too low.
-/

namespace InfinityLabs
namespace Ds

open Lib

namespace AvlNode

variable {α : Type}

/-! ## Balance -/

/-- The heights of the two subtrees of every node differ by at most 1. -/
def Balanced : AvlNode α → Prop
  | .null => True
  | .node _ _ left right =>
      left.height ≤ right.height + 1 ∧ right.height ≤ left.height + 1 ∧
        left.Balanced ∧ right.Balanced

/-- Balance is decidable. -/
instance decidableBalanced : (t : AvlNode α) → Decidable t.Balanced
  | .null => .isTrue trivial
  | .node _ _ left right =>
      have := decidableBalanced left
      have := decidableBalanced right
      inferInstanceAs (Decidable (left.height ≤ right.height + 1 ∧
        right.height ≤ left.height + 1 ∧ left.Balanced ∧ right.Balanced))

@[simp] theorem balanced_null : (null : AvlNode α).Balanced := trivial

@[simp] theorem balanced_sized (data : α) (left right : AvlNode α) :
    (sized data left right).Balanced ↔
      left.height ≤ right.height + 1 ∧ right.height ≤ left.height + 1 ∧
        left.Balanced ∧ right.Balanced :=
  Iff.rfl

/-- `PopMin` lowers the tree: each node on the way to the leftmost one is higher on its
left side. -/
def popShrinks : AvlNode α → Bool
  | .null => false
  | .node _ _ left right =>
      left.height == 0 || (left.popShrinks && decide (right.height < left.height))

/-- `PopMin` leaves the tree balanced: it lowers no left subtree that is already the lower
one. -/
def popKeepsBalance : AvlNode α → Bool
  | .null => true
  | .node _ _ left right =>
      left.popKeepsBalance && !(left.popShrinks && decide (left.height < right.height))

/-- The removal of `data` leaves the tree balanced: `PopMin` does, if the node has to be
replaced by its successor. -/
def removeKeepsBalance (cmp : α → α → Int) (data : α) : AvlNode α → Bool
  | .null => true
  | .node _ nodeData left right =>
      if cmp data nodeData < 0 then left.removeKeepsBalance cmp data
      else if 0 < cmp data nodeData then right.removeKeepsBalance cmp data
      else right.popKeepsBalance

/-! ## Rearrangements -/

variable {x : α} {left right t t' : AvlNode α}

/-- A rearrangement is as high as the higher side or one higher. -/
theorem Rebalanced.height_bounds (h : Rebalanced x left right t) :
    max left.height right.height ≤ t.height ∧
      t.height ≤ 1 + max left.height right.height := by
  cases h <;> simp only [height_sized] at * <;> omega

/-- Two sides that are near each other stay in their places. -/
theorem Rebalanced.height_kept (h : Rebalanced x left right t)
    (hleft : left.height ≤ right.height + 1) (hright : right.height ≤ left.height + 1) :
    t.height = 1 + max left.height right.height := by
  cases h <;> simp only [height_sized] at * <;> omega

/-- Where the left side is at most two higher and balanced, balance depends on the right
side. -/
theorem Rebalanced.balanced_iff_right (h : Rebalanced x left right t)
    (hbalanced : left.Balanced) (hleft : left.height ≤ right.height + 2)
    (hright : right.height ≤ left.height + 1) : t.Balanced ↔ right.Balanced := by
  cases h with
  | kept hleft' _ => simp [hleft', hright, hbalanced]
  | right htall hlean =>
      simp only [balanced_sized, height_sized] at *
      obtain ⟨hab, hba, ha, hb⟩ := hbalanced
      constructor
      · rintro ⟨-, -, -, -, -, -, hright⟩
        exact hright
      · exact fun hright => ⟨by omega, by omega, ha, by omega, by omega, hb, hright⟩
  | leftRight htall hlean =>
      simp only [balanced_sized, height_sized] at *
      obtain ⟨hab, hba, ha, hbc, hcb, hb, hc⟩ := hbalanced
      constructor
      · rintro ⟨-, -, -, -, -, -, hright⟩
        exact hright
      · exact fun hright => ⟨by omega, by omega, ⟨by omega, by omega, ha, hb⟩,
          by omega, by omega, hc, hright⟩
  -- the other two move a right side that is too high
  | left htall _ => omega
  | rightLeft htall _ => omega

/-- Where the right side is at most two higher and balanced, balance depends on the left
side. -/
theorem Rebalanced.balanced_iff_left (h : Rebalanced x left right t)
    (hbalanced : right.Balanced) (hleft : left.height ≤ right.height + 1)
    (hright : right.height ≤ left.height + 2) : t.Balanced ↔ left.Balanced := by
  cases h with
  | kept _ hright' => simp [hleft, hright', hbalanced]
  -- the two that move a left side do not apply
  | right htall _ => omega
  | leftRight htall _ => omega
  | left htall hlean =>
      simp only [balanced_sized, height_sized] at *
      obtain ⟨hab, hba, ha, hb⟩ := hbalanced
      constructor
      · rintro ⟨-, -, ⟨-, -, hleft, -⟩, -⟩
        exact hleft
      · exact fun hleft => ⟨by omega, by omega, ⟨by omega, by omega, hleft, ha⟩, hb⟩
  | rightLeft htall hlean =>
      simp only [balanced_sized, height_sized] at *
      obtain ⟨hab, hba, ⟨hac, hca, ha, hc⟩, hb⟩ := hbalanced
      constructor
      · rintro ⟨-, -, ⟨-, -, hleft, -⟩, -⟩
        exact hleft
      · exact fun hleft => ⟨by omega, by omega, ⟨by omega, by omega, hleft, ha⟩,
          by omega, by omega, hc, hb⟩

/-! ## Insertion -/

variable {cmp : α → α → Int} {data : α}

/-- **An insertion keeps the balance**, and makes the tree at most one higher. -/
theorem Inserted.balanced (h : Inserted cmp data t t') (ht : t.Balanced) :
    t'.Balanced ∧ t.height ≤ t'.height ∧ t'.height ≤ t.height + 1 := by
  induction h with
  | here => simp
  | left _ _ hbalance ih =>
      obtain ⟨hlr, hrl, hleft, hright⟩ := ht
      obtain ⟨hleft', hgrows, hgrows'⟩ := ih hleft
      have hbounds := hbalance.height_bounds
      have hkept := hbalance.height_kept
      refine ⟨(hbalance.balanced_iff_right hleft' (by omega) (by omega)).mpr hright, ?_⟩
      rw [height_sized]
      omega
  | right _ _ hbalance ih =>
      obtain ⟨hlr, hrl, hleft, hright⟩ := ht
      obtain ⟨hright', hgrows, hgrows'⟩ := ih hright
      have hbounds := hbalance.height_bounds
      have hkept := hbalance.height_kept
      refine ⟨(hbalance.balanced_iff_left hright' (by omega) (by omega)).mpr hleft, ?_⟩
      rw [height_sized]
      omega

/-! ## Removal -/

/-- `PopMin` needs a node. -/
theorem Popped.height_pos {minimum : α} (h : Popped t t' minimum) : 0 < t.height := by
  cases h <;> rw [height_sized] <;> omega

/-- The height after `PopMin`. -/
theorem Popped.height_eq {minimum : α} (h : Popped t t' minimum) :
    t.height = t'.height + if t.popShrinks then 1 else 0 := by
  induction h with
  | here => simp [sized, popShrinks, height, Nat.add_comm]
  | left hrest ih =>
      rename_i y _ left right left'
      have hpos := hrest.height_pos
      have hshrinks : (sized y left right).popShrinks =
          (left.popShrinks && decide (right.height < left.height)) := by
        rw [sized, popShrinks, beq_false_of_ne (Nat.ne_of_gt hpos), Bool.false_or]
      rw [hshrinks, height_sized, height_sized]
      cases hleft : left.popShrinks with
      | false => simp_all
      | true =>
          simp only [hleft, if_true, Bool.true_and, decide_eq_true_eq] at ih ⊢
          split <;> omega

/-- `PopMin` makes a tree at most one lower. -/
theorem Popped.height_bounds {minimum : α} (h : Popped t t' minimum) :
    t'.height ≤ t.height ∧ t.height ≤ t'.height + 1 := by
  have hheight := h.height_eq
  split at hheight <;> omega

/-- **When `PopMin` keeps the balance.** -/
theorem Popped.balanced_iff {minimum : α} (h : Popped t t' minimum) (ht : t.Balanced) :
    t'.Balanced ↔ t.popKeepsBalance = true := by
  induction h with
  | here => exact iff_of_true ht.2.2.2 rfl
  | left hrest ih =>
      rename_i left right left'
      obtain ⟨hlr, hrl, hleft, hright⟩ := ht
      have hheight := hrest.height_eq
      rw [balanced_sized, ih hleft, sized, popKeepsBalance]
      cases hshrinks : left.popShrinks with
      | false =>
          have hsame : left'.height = left.height := by simpa [hshrinks] using hheight.symm
          simp [hsame, hlr, hrl, hright]
      | true =>
          -- the left side becomes one lower, which it may do unless it is the lower one
          simp only [hshrinks, if_true] at hheight
          simp only [Bool.true_and, Bool.and_eq_true, Bool.not_eq_true', decide_eq_false_iff_not]
          constructor
          · rintro ⟨-, hrl', hkeeps, -⟩
            exact ⟨hkeeps, by omega⟩
          · rintro ⟨hkeeps, hlow⟩
            exact ⟨by omega, by omega, hkeeps, hright⟩

/-- `PopMin` finds no node to unbalance in a tree of height 1. -/
theorem popKeepsBalance_of_low (hlow : t.height ≤ 1) : t.popKeepsBalance = true := by
  cases t with
  | null => rfl
  | node storedHeight y left right =>
      rw [height] at hlow
      have hleft : left = .null := by
        cases left with
        | null => rfl
        | node h z a b =>
            have hpos := height_node_pos h z a b
            omega
      rw [popKeepsBalance, hleft]
      rfl

/-- **When a removal keeps the balance**: exactly if `PopMin` does.  The tree becomes at
most one lower. -/
theorem Removed.balanced_iff (h : Removed cmp data t t') (ht : t.Balanced) :
    (t'.Balanced ↔ t.removeKeepsBalance cmp data = true) ∧
      t'.height ≤ t.height ∧ t.height ≤ t'.height + 1 := by
  induction h with
  | absent => simp [removeKeepsBalance]
  | left hbelow _ hbalance ih =>
      obtain ⟨hlr, hrl, hleft, hright⟩ := ht
      obtain ⟨hiff, hshrinks, hshrinks'⟩ := ih hleft
      have hbounds := hbalance.height_bounds
      have hkept := hbalance.height_kept
      constructor
      · rw [hbalance.balanced_iff_left hright (by omega) (by omega), hiff, sized,
          removeKeepsBalance, if_pos hbelow]
      · rw [height_sized]
        omega
  | right habove _ hbalance ih =>
      obtain ⟨hlr, hrl, hleft, hright⟩ := ht
      obtain ⟨hiff, hshrinks, hshrinks'⟩ := ih hright
      have hbounds := hbalance.height_bounds
      have hkept := hbalance.height_kept
      constructor
      · rw [hbalance.balanced_iff_right hleft (by omega) (by omega), hiff, sized,
          removeKeepsBalance, if_neg (by omega), if_pos habove]
      · rw [height_sized]
        omega
  | noLeft hequal =>
      -- without a left side the right one has no more than one level
      rename_i right
      obtain ⟨hlr, hrl, -, hright⟩ := ht
      constructor
      -- a node without a left side has a right side of height 1 at most
      · rw [sized, removeKeepsBalance, if_neg (by omega), if_neg (by omega)]
        exact iff_of_true hright (popKeepsBalance_of_low hrl)
      · rw [height_sized, height_null]
        omega
  | noRight hequal _ =>
      obtain ⟨hlr, hrl, hleft, -⟩ := ht
      constructor
      · rw [sized, removeKeepsBalance, if_neg (by omega), if_neg (by omega)]
        exact iff_of_true hleft rfl
      · rw [height_sized, height_null]
        omega
  | both hequal _ hpop hbalance =>
      obtain ⟨hlr, hrl, hleft, hright⟩ := ht
      -- the successor comes out of the right side, and the node is balanced after it
      have hiff := hpop.balanced_iff hright
      obtain ⟨hshrinks, hshrinks'⟩ := hpop.height_bounds
      have hbounds := hbalance.height_bounds
      have hkept := hbalance.height_kept
      constructor
      · rw [hbalance.balanced_iff_right hleft (by omega) (by omega), hiff, sized,
          removeKeepsBalance, if_neg (by omega), if_neg (by omega)]
      · rw [height_sized]
        omega

end AvlNode

/-! ## Runs -/

variable {α : Type} {C : Comparator α} {s s' : AvlState α}

/-- The condition on a call: a removal that takes a successor out of a subtree leaves this
subtree balanced. -/
def AvlState.keepsBalance (C : Comparator α) (s : AvlState α) : AvlAction α → Bool
  | .insert _ => true
  | .remove data => s.tree.root.removeKeepsBalance C.cmp data

/-- From a balanced tree a call leads to a balanced tree exactly under the condition. -/
theorem AvlState.Wf.balanced_iff (hs : s.Wf C) (hbalanced : s.tree.root.Balanced)
    {a : AvlAction α} (hstep : s.step C a = some s') :
    s'.tree.root.Balanced ↔ s.keepsBalance C a = true := by
  obtain ⟨data, root, rfl, -, hinserted, -, rfl⟩ | ⟨data, root, rfl, hremoved, -, rfl⟩ :=
    hs.step_cases hstep
  · exact iff_of_true (hinserted.balanced hbalanced).1 rfl
  · exact (hremoved.balanced_iff hbalanced).1

/-- **When AVL trees stay balanced**: in every run whose calls meet the condition every
tree is balanced, and the next call leaves it so exactly if it meets the condition too. -/
theorem avl_balanced (C : Comparator α)
    (hreached : (avlMachine C).ReachedBy (fun s a => s.keepsBalance C a = true) s) :
    s.tree.root.Balanced ∧ ∀ a s', (avlMachine C).step s a = some s' →
      (s'.tree.root.Balanced ↔ s.keepsBalance C a = true) := by
  have hs := avlMachine_wf hreached
  have hbalanced : s.tree.root.Balanced := by
    induction hreached with
    | start hstart =>
        obtain rfl := hstart
        exact trivial
    | step hreached hguard hstep ih =>
        have hbefore := avlMachine_wf hreached
        exact (hbefore.balanced_iff (ih hbefore) hstep).mpr hguard
  exact ⟨hbalanced, fun a s' hstep => hs.balanced_iff hbalanced hstep⟩

/-- The removal of 4 replaces it by 5, the left child of 6, whose right child is of height
2: the node of 6 is left with an empty left subtree next to it. -/
theorem avl_unbalanced :
    ¬ ∀ (C : Comparator Nat) (s : AvlState Nat), (avlMachine C).Reached s →
      s.tree.root.Balanced := by
  intro hclaim
  have hstart : (avlMachine natural).Reached ⟨avlCreate natural.cmp, []⟩ := .start rfl
  have hrun : ((avlMachine natural).run ⟨avlCreate natural.cmp, []⟩
      [.insert 4, .insert 2, .insert 6, .insert 1, .insert 5, .insert 7, .insert 8,
        .remove 4]).map (fun s => decide s.tree.root.Balanced) = some false := by decide
  obtain ⟨s, hs, hshown⟩ := hstart.run_map hrun
  exact of_decide_eq_false hshown (hclaim natural s hs)

/-- A removal that replaces the root by its successor keeps the balance. -/
theorem avl_balanced_sample :
    ∃ s : AvlState Nat, s.tree.root = .node 2 3 (.node 1 1 .null .null) .null ∧
      s.tree.root.Balanced ∧ ∀ a s', (avlMachine natural).step s a = some s' →
        (s'.tree.root.Balanced ↔ s.keepsBalance natural a = true) := by
  have hstart : (avlMachine natural).ReachedBy
      (fun s a => s.keepsBalance natural a = true) ⟨avlCreate natural.cmp, []⟩ := .start rfl
  have hadmits : (avlMachine natural).Admits (fun s a => s.keepsBalance natural a = true)
      ⟨avlCreate natural.cmp, []⟩ [.insert 2, .insert 1, .insert 3, .remove 2] :=
    ⟨rfl, rfl, rfl, rfl, trivial⟩
  have hrun : ((avlMachine natural).run ⟨avlCreate natural.cmp, []⟩
      [.insert 2, .insert 1, .insert 3, .remove 2]).map (fun s => s.tree.root) =
        some (.node 2 3 (.node 1 1 .null .null) .null) := by decide
  obtain ⟨s, hs, hshown⟩ := hstart.run_map hadmits hrun
  exact ⟨s, hshown, avl_balanced natural hs⟩

end Ds
end InfinityLabs
