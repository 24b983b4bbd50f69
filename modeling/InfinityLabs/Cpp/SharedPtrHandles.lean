import InfinityLabs.Cpp.SharedPtrRelease
import Mathlib.Algebra.Order.BigOperators.Group.List
import Mathlib.Algebra.Order.Group.Nat

/-!
# The handles of an object

The counter of an object is the number of the live handles that hold it.  A handle that is
written moves one from the counter of what it held to that of what it holds, and until a release
or a copy has made up for it the counters are off by that much.
-/

namespace InfinityLabs
namespace Cpp

open Lib

/-! ## Handles -/

/-- What a handle counts for an object. -/
def pointsTo (ptr : SharedPtr) (o : Nat) : Nat := if ptr = some o then 1 else 0

@[simp] theorem pointsTo_none (o : Nat) : pointsTo none o = 0 := rfl

@[simp] theorem pointsTo_self (o : Nat) : pointsTo (some o) o = 1 := if_pos rfl

/-- How a handle that is written counts. -/
theorem count_set_handle {handles : List (Option SharedPtr)} {i : Nat} {old : SharedPtr}
    (hget : handles[i]? = some (some old)) (ptr : SharedPtr) (o : Nat) :
    (handles.set i (some ptr)).count (some (some o)) + pointsTo old o =
      handles.count (some (some o)) + pointsTo ptr o := by
  have hcount := count_set_add hget (some ptr) (some (some o))
  simpa only [pointsTo, beq_iff_eq, Option.some.injEq] using hcount

namespace SharedState

variable {s s' : SharedState}

/-- The number of live handles of an object. -/
def handles (s : SharedState) (o : Nat) : Nat :=
  s.roots.count (some (some o)) + held s.objects o

theorem read_root_iff {index : Nat} {ptr : SharedPtr} :
    s.read (.root index) = some ptr ↔ s.roots[index]? = some (some ptr) := by
  rw [read, Option.join_eq_some_iff]

theorem read_field_iff {object index : Nat} {ptr : SharedPtr} :
    s.read (.field object index) = some ptr ↔
      ∃ obj, s.objects[object]? = some obj ∧ obj.fields[index]? = some (some ptr) := by
  simp only [read, Option.bind_eq_some_iff, Option.join_eq_some_iff]

/-- An object has a handle where one reads it. -/
theorem handles_pos_iff {o : Nat} : 0 < s.handles o ↔ ∃ place, s.read place = some (some o) := by
  constructor
  · intro hpos
    by_cases hroots : 0 < s.roots.count (some (some o))
    case pos =>
      obtain ⟨index, hindex⟩ := List.getElem?_of_mem (List.count_pos_iff.mp hroots)
      exact ⟨.root index, read_root_iff.mpr hindex⟩
    case neg =>
      have hheld : 0 < held s.objects o := by
        rw [handles] at hpos
        omega
      obtain ⟨n, hmem, hn⟩ := List.sum_pos_iff_exists_pos_nat.mp hheld
      obtain ⟨obj, hobj, rfl⟩ := List.mem_map.mp hmem
      obtain ⟨object, hobject⟩ := List.getElem?_of_mem hobj
      obtain ⟨index, hindex⟩ := List.getElem?_of_mem (List.count_pos_iff.mp hn)
      exact ⟨.field object index, read_field_iff.mpr ⟨obj, hobject, hindex⟩⟩
  · rintro ⟨place, hread⟩
    cases place with
    | root index =>
        have hmem := List.mem_of_getElem? (read_root_iff.mp hread)
        exact Nat.add_pos_left (List.count_pos_iff.mpr hmem) _
    | field object index =>
        obtain ⟨obj, hobject, hindex⟩ := read_field_iff.mp hread
        have hcount := List.count_pos_iff.mpr (List.mem_of_getElem? hindex)
        exact Nat.add_pos_right _ (List.sum_pos_iff_exists_pos_nat.mpr
          ⟨_, List.mem_map.mpr ⟨obj, List.mem_of_getElem? hobject, rfl⟩, hcount⟩)

/-- The handles of an object are live. -/
theorem handles_le_liveHandles (s : SharedState) (o : Nat) : s.handles o ≤ s.liveHandles := by
  refine Nat.add_le_add (count_some_le_countP_isSome _ _) ?_
  exact List.sum_le_sum fun obj _ => count_some_le_countP_isSome obj.fields (some o)

/-- Where no more handles are live, there is as much room. -/
theorem HasRoom.mono {n n' : Nat} (h : s.HasRoom n)
    (hle : s'.liveHandles + n' ≤ s.liveHandles + n) : s'.HasRoom n' :=
  Nat.le_trans (Nat.mul_le_mul_left _ hle) h

/-! ## Balanced counters -/

/-- A counter is the number of the handles of its object, and of what is owed to it. -/
structure Balanced (s : SharedState) (owed : Nat → Int) : Prop where
  ledger : Ledger s.objects fun o => s.roots.count (some (some o)) + owed o
  settled : ∀ (o : Nat) obj, s.objects[o]? = some obj → obj.Settled
  inRange : ∀ o, 0 < s.roots.count (some (some o)) → o < s.objects.length
  room : s.HasRoom 0

namespace Balanced

variable {owed : Nat → Int}

theorem refcount (h : s.Balanced owed) {o : Nat} {obj : Object} (hget : s.objects[o]? = some obj) :
    (obj.refcount : Int) = s.handles o + owed o := by
  have hcount := h.ledger.count o obj hget
  rw [handles]
  omega

/-- What is read is there. -/
theorem exists_object (h : s.Balanced owed) {place : Place} {o : Nat}
    (hread : s.read place = some (some o)) : ∃ obj, s.objects[o]? = some obj := by
  have hpos := handles_pos_iff.mpr ⟨place, hread⟩
  have hlt : o < s.objects.length := by
    by_cases hroots : 0 < s.roots.count (some (some o))
    case pos => exact h.inRange o hroots
    case neg =>
      refine h.ledger.inRange o ?_
      rw [handles] at hpos
      omega
  exact ⟨_, List.getElem?_eq_getElem hlt⟩

/-- An object has live fields if it is held. -/
theorem refcount_ne_zero (h : s.Balanced owed) {o : Nat} {obj : Object}
    (hget : s.objects[o]? = some obj) {handle : Option SharedPtr} (hmem : handle ∈ obj.fields)
    (hlive : handle.isSome) : obj.refcount ≠ 0 := by
  intro hzero
  have hsettled := h.settled o obj hget
  rw [Object.Settled, if_pos hzero] at hsettled
  rw [hsettled.2 handle hmem] at hlive
  cases hlive

/-- The objects that are held have ranks. -/
theorem exists_ranks (h : s.Balanced owed) (hacyclic : Acyclic (PointsTo s.objects)) :
    ∃ rank, Ranks rank (PointsTo s.objects) := by
  refine hacyclic.exists_ranks (Finset.range s.objects.length) ?_
  rintro o target ⟨obj, hget, hmem⟩
  refine Finset.mem_range.mpr (h.ledger.inRange target ?_)
  exact List.sum_pos_iff_exists_pos_nat.mpr ⟨_, List.mem_map.mpr
    ⟨obj, List.mem_of_getElem? hget, rfl⟩, List.count_pos_iff.mpr hmem⟩

end Balanced

/-! ## Writes -/

/-- A handle that held `old` holds `ptr`. -/
structure Written (s s' : SharedState) (place : Place) (old ptr : SharedPtr) : Prop where
  self : s'.read place = some ptr
  others : ∀ other, other ≠ place → s'.read other = s.read other
  refcount : ∀ o : Nat, (s'.objects[o]?).map Object.refcount = (s.objects[o]?).map Object.refcount
  balanced : ∀ owed, s.Balanced owed → (∀ o, ptr = some o → o < s.objects.length) →
    s'.Balanced fun o => owed o + pointsTo old o - pointsTo ptr o

/-- A handle of the program. -/
theorem write_root {index : Nat} {old : SharedPtr} (hread : s.read (.root index) = some old)
    (ptr : SharedPtr) :
    ∃ s', s.write ptr (.root index) = some s' ∧ Written s s' (.root index) old ptr := by
  have hget := read_root_iff.mp hread
  refine ⟨{ s with roots := s.roots.set index (some ptr) }, by rw [write, hget]; rfl, ?_, ?_,
    fun _ => rfl, ?_⟩
  · exact read_root_iff.mpr (List.getElem?_set_self (List.getElem?_eq_some_iff.mp hget).1)
  · intro other hne
    cases other with
    | field => rfl
    | root index' =>
        have hindex : index ≠ index' := fun heq => hne (congrArg Place.root heq.symm)
        rw [read, read, List.getElem?_set_ne hindex]
  · intro owed h hrange
    have hcount := count_set_handle hget ptr
    refine ⟨?_, h.settled, ?_, ?_⟩
    · have hextra : (fun o => ((s.roots.set index (some ptr)).count (some (some o)) : Int) +
          (owed o + pointsTo old o - pointsTo ptr o)) =
          fun o => s.roots.count (some (some o)) + owed o := by
        funext o
        have hcountO := hcount o
        omega
      exact hextra.symm ▸ h.ledger
    · intro o hpos
      by_cases hptr : ptr = some o
      case pos => exact hrange o hptr
      case neg =>
        have hcountO := hcount o
        rw [pointsTo, pointsTo, if_neg hptr] at hcountO
        refine h.inRange o ?_
        dsimp only at hpos
        omega
    · refine h.room.mono ?_
      rw [liveHandles, liveHandles, countP_isSome_set_some hget ptr]

/-- A field of an object. -/
theorem write_field {object index : Nat} {old : SharedPtr}
    (hread : s.read (.field object index) = some old) (ptr : SharedPtr) :
    ∃ s', s.write ptr (.field object index) = some s' ∧
      Written s s' (.field object index) old ptr := by
  obtain ⟨obj, hobject, hget⟩ := read_field_iff.mp hread
  have hlt := (List.getElem?_eq_some_iff.mp hobject).1
  refine ⟨{ s with
      objects := s.objects.set object { obj with fields := obj.fields.set index (some ptr) } },
    by rw [write, hobject, Option.bind_some, hget]; rfl, ?_, ?_, ?_, ?_⟩
  · exact read_field_iff.mpr ⟨_, List.getElem?_set_self hlt,
      List.getElem?_set_self (List.getElem?_eq_some_iff.mp hget).1⟩
  · intro other hne
    cases other with
    | root => rfl
    | field object' index' =>
        by_cases hobject' : object = object'
        case pos =>
          subst hobject'
          have hindex : index ≠ index' := fun heq => hne (congrArg (Place.field object) heq.symm)
          rw [read, read, List.getElem?_set_self hlt, hobject, Option.bind_some, Option.bind_some,
            List.getElem?_set_ne hindex]
        case neg => rw [read, read, List.getElem?_set_ne hobject']
  · intro o
    by_cases ho : object = o
    case pos =>
      subst ho
      rw [List.getElem?_set_self hlt, hobject]
      rfl
    case neg => rw [List.getElem?_set_ne ho]
  · intro owed h hrange
    have hcount := count_set_handle hget ptr
    refine ⟨?_, ?_, ?_, ?_⟩
    · refine h.ledger.set hobject ?_ (h.ledger.bounded object obj hobject) ?_ ?_
      · intro o hgrows
        refine hrange o (by_contra fun hptr => ?_)
        have hcountO := hcount o
        rw [pointsTo, pointsTo, if_neg hptr] at hcountO
        dsimp only at hgrows
        omega
      · have hcountO := hcount object
        dsimp only
        omega
      · intro o _
        have hcountO := hcount o
        dsimp only
        omega
    · intro o other hother
      rcases of_getElem?_set hother with ⟨rfl, rfl⟩ | ⟨-, hother⟩
      · have hne := h.refcount_ne_zero hobject (List.mem_of_getElem? hget) rfl
        have hsettled := h.settled o obj hobject
        rw [Object.Settled, if_neg hne] at hsettled ⊢
        exact ⟨hsettled.1, forall_mem_set hsettled.2 rfl⟩
      · exact h.settled o other hother
    · intro o hpos
      rw [List.length_set]
      exact h.inRange o hpos
    · have hsum := sum_map_set_add hobject { obj with fields := obj.fields.set index (some ptr) }
        fun obj => obj.fields.countP Option.isSome
      have hcountP := countP_isSome_set_some hget ptr
      refine h.room.mono ?_
      rw [liveHandles, liveHandles]
      dsimp only at hsum ⊢
      omega

/-- A live handle can be written. -/
theorem write_spec {place : Place} {old : SharedPtr} (hread : s.read place = some old)
    (ptr : SharedPtr) : ∃ s', s.write ptr place = some s' ∧ Written s s' place old ptr := by
  cases place with
  | root index => exact write_root hread ptr
  | field object index => exact write_field hread ptr

/-- An object is held, if it does not count the handle at `place`, where another one reads it. -/
theorem Balanced.refcount_iff {place : Place} {old : SharedPtr}
    (h : s.Balanced fun o => -pointsTo old o) (hread : s.read place = some old) {o : Nat}
    {obj : Object} (hget : s.objects[o]? = some obj) :
    obj.refcount ≠ 0 ↔ ∃ other, other ≠ place ∧ s.read other = some (some o) := by
  obtain ⟨s', -, hwritten⟩ := write_spec hread none
  have hbalanced := hwritten.balanced _ h (by simp)
  obtain ⟨obj', hget', hrefcount⟩ : ∃ obj', s'.objects[o]? = some obj' ∧
      obj'.refcount = obj.refcount := by
    have hmap := hwritten.refcount o
    rw [hget] at hmap
    exact Option.map_eq_some_iff.mp hmap
  have hcount := hbalanced.refcount hget'
  have hpos : obj.refcount ≠ 0 ↔ 0 < s'.handles o := by
    rw [pointsTo_none] at hcount
    omega
  rw [hpos, handles_pos_iff]
  constructor
  · rintro ⟨other, hother⟩
    have hne : other ≠ place := by
      rintro rfl
      rw [hwritten.self] at hother
      cases hother
    exact ⟨other, hne, by rwa [hwritten.others other hne] at hother⟩
  · rintro ⟨other, hne, hother⟩
    exact ⟨other, by rwa [hwritten.others other hne]⟩

end SharedState

end Cpp
end InfinityLabs
