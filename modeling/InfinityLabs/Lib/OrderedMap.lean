import Mathlib.Data.List.Basic
import Mathlib.Tactic.Common

/-!
# Maps in the order of insertion

A map keeps its entries in the order in which their keys came.  Setting a key that is
there replaces the value in its place.  The map of a list of keys, each with the value
that a function gives it, is read and written pointwise.
-/

namespace InfinityLabs
namespace Lib

universe u v w

/-- The entries, in the order of insertion. -/
abbrev OrderedMap (κ : Type u) (α : Type v) := List (κ × α)

namespace OrderedMap

variable {κ : Type u} {α : Type v} [DecidableEq κ]

/-- `get`. -/
def get (map : OrderedMap κ α) (key : κ) : Option α :=
  (map.find? fun entry => entry.1 = key).map Prod.snd

/-- A write to the value of a key, in its place. -/
def update (map : OrderedMap κ α) (key : κ) (f : α → α) : OrderedMap κ α :=
  map.map fun entry => if entry.1 = key then (entry.1, f entry.2) else entry

/-- `set`: a new key comes last. -/
def set (map : OrderedMap κ α) (key : κ) (value : α) : OrderedMap κ α :=
  if (map.get key).isSome then map.update key fun _ => value else map ++ [(key, value)]

/-! ## The map of a list of keys -/

variable {ι : Type w} {name : ι → κ} {value : ι → α} {keys : List ι}

/-- The keys of a list with their values. -/
def tabulate (name : ι → κ) (value : ι → α) (keys : List ι) : OrderedMap κ α :=
  keys.map fun key => (name key, value key)

variable (hname : Function.Injective name)

include hname

/-- A key that is listed has its value. -/
theorem get_tabulate_of_mem {key : ι} (hkey : key ∈ keys) :
    (tabulate name value keys).get (name key) = some (value key) := by
  induction keys with
  | nil => cases hkey
  | cons first keys ih =>
      rw [tabulate, List.map_cons, get, List.find?_cons]
      -- different keys have different names, so the first entry of the name is the key's
      by_cases hsame : name first = name key
      · rw [hname hsame]
        simp
      · rw [decide_eq_false hsame]
        have hrest := (List.mem_cons.mp hkey).resolve_left fun heq => hsame (heq ▸ rfl)
        exact ih hrest

/-- A key that is not listed has none. -/
theorem get_tabulate_of_not_mem {key : ι} (hkey : key ∉ keys) :
    (tabulate name value keys).get (name key) = none := by
  rw [get, Option.map_eq_none_iff, List.find?_eq_none]
  intro entry hentry
  obtain ⟨other, hother, rfl⟩ := List.mem_map.mp hentry
  rw [decide_eq_true_eq]
  exact fun hsame => hkey (hname hsame ▸ hother)

/-- **A new key is listed last**, under values that are the old ones for the old keys. -/
theorem set_tabulate {value' : ι → α} {key : ι} (hkey : key ∉ keys)
    (hold : ∀ other ∈ keys, value other = value' other) :
    (tabulate name value keys).set (name key) (value' key) =
      tabulate name value' (keys ++ [key]) := by
  have hsame : tabulate name value keys = tabulate name value' keys :=
    List.map_congr_left fun other hother => by rw [hold other hother]
  rw [set, get_tabulate_of_not_mem hname hkey, hsame, tabulate, tabulate, List.map_append]
  rfl

/-- A value is written in its place. -/
theorem update_tabulate [DecidableEq ι] (key : ι) (f : α → α) :
    (tabulate name value keys).update (name key) f =
      tabulate name (fun other => if other = key then f (value other) else value other) keys := by
  rw [update, tabulate, tabulate, List.map_map]
  refine List.map_congr_left fun other _ => ?_
  simp only [Function.comp_apply, hname.eq_iff]
  split <;> rfl

end OrderedMap

end Lib
end InfinityLabs
