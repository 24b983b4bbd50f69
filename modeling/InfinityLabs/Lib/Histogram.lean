import Mathlib.Tactic.Common

/-!
# Histograms

A histogram counts the elements of a list.  Written out key by key it gives the list back, in
the order of the keys.
-/

namespace InfinityLabs
namespace Lib

variable {α : Type} (h : α → Nat) {keys l : List α}

end Lib
end InfinityLabs
