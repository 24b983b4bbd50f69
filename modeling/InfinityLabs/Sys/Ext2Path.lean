import InfinityLabs.Lib.Separated
import InfinityLabs.Sys.Ext2Directory
import InfinityLabs.Sys.Ext2Read

/-!
# Opening a file by its path

`PathToInode` and `Open` of `system_programming/src/ext2.c`.  The path is cut at its slashes by
`strtok`, and each name is looked up in the directory that the one before it has led to.

Where a path leads in an image is told by the live entries of its directories.
-/

namespace InfinityLabs
namespace Sys

open Lib

/-! ## The code -/

namespace Ext2

variable (fs : Ext2)

end Ext2

/-- The names lead from one place to another, where each names a way on from the place that the
names before it have led to. -/
inductive Walk {α : Type} (entry : Nat → α → Nat → Prop) : Nat → List α → Nat → Prop
  | here (n : Nat) : Walk entry n [] n
  | down {n k m : Nat} {name : α} {names : List α} (hentry : entry n name k)
      (hwalk : Walk entry k names m) : Walk entry n (name :: names) m

section

variable {α : Type} {entry entry' : Nat → α → Nat → Prop} {n k m : Nat} {name : α}
  {names : List α}

theorem Walk.mono (himp : ∀ n name k, entry n name k → entry' n name k)
    (h : Walk entry n names m) : Walk entry' n names m := by
  induction h with
  | here n => exact .here n
  | down hentry _ ih => exact .down (himp _ _ _ hentry) ih

/-- One more name. -/
theorem Walk.concat (h : Walk entry n names k) (hentry : entry k name m) :
    Walk entry n (names ++ [name]) m := by
  induction h with
  | here n => exact .down hentry (.here _)
  | down hfirst _ ih => exact .down hfirst (ih hentry)

end

/-- The records of a block are told by its bytes. -/
theorem Chain.unique {block : List UInt8} {offset : Nat} {offsets offsets' : List Nat}
    (h : Chain block offset offsets) (h' : Chain block offset offsets') : offsets = offsets' := by
  -- Behind the block there is no record.
  have hnone : recLen block block.length = 0 := by
    rw [recLen, fieldAt, List.drop_of_length_le (by omega), List.take_nil]
    rfl
  induction h generalizing offsets' with
  | done =>
      generalize hoffset : block.length = offset at h'
      cases h' with
      | done => rfl
      | record aligned room next =>
          rw [← hoffset, hnone] at room
          omega
  | record aligned room next ih =>
      cases h' with
      | done =>
          rw [hnone] at room
          omega
      | record aligned' room' next' => rw [ih next']

/-! ## Cutting the path -/

namespace Ext2

variable {fs : Ext2} {allocated : Nat → Bool} {i n : Nat} {text rest name : List UInt8}
  {names before : List (List UInt8)}

end Ext2

/-! ## A file in a directory -/

end Sys
end InfinityLabs
