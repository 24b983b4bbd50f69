import InfinityLabs.Cpp.SharedPtrHandles
import Mathlib.Data.Finset.Lattice.Fold

/-!
# Programs with shared pointers

An assignment releases what the handle held before it reads the other handle.  That one may be a
field of an object that the release deletes: it is still there only if the program reaches its
object without the handle that is assigned.
-/

namespace InfinityLabs
namespace Cpp

open Lib

namespace SharedState

variable {s s' : SharedState} {owed : Nat → Int} {ptr : SharedPtr}

/-! ## Releases and copies -/

/-- What a handle held is released; what lies above it is as it was. -/
structure AfterRelease (rank : Nat → Nat) (owed : Nat → Int) (s s' : SharedState)
    (ptr : SharedPtr) : Prop where
  roots : s'.roots = s.roots
  shrinks : Shrinks s.objects s'.objects
  balanced : s'.Balanced fun o => owed o - pointsTo ptr o
  above : ∀ o : Nat, (∀ target, ptr = some target → rank target < rank o) →
    s'.objects[o]? = s.objects[o]?

/-- No more handles are live. -/
theorem liveHandles_le_of_shrinks (hroots : s'.roots = s.roots)
    (hshrinks : Shrinks s.objects s'.objects) : s'.liveHandles ≤ s.liveHandles := by
  rw [liveHandles, liveHandles, hroots]
  refine Nat.add_le_add_left (sum_map_le_of_getElem? hshrinks.length ?_) _
  intro o obj obj' hget hget'
  exact (hshrinks.shrunk o obj obj' hget hget').live

theorem releasePtr_spec {rank : Nat → Nat} (h : s.Balanced owed)
    (hranked : Ranks rank (PointsTo s.objects))
    (howed : ∀ o, 0 ≤ s.roots.count (some (some o)) + owed o)
    (hheld : ∀ o, ptr = some o → o < s.objects.length ∧ 0 < s.handles o + owed o) :
    ∃ s', s.releasePtr ptr = some s' ∧ AfterRelease rank owed s s' ptr := by
  cases ptr with
  | none =>
      refine ⟨s, rfl, rfl, Shrinks.refl _, ?_, fun _ _ => rfl⟩
      simpa using h
  | some object =>
      obtain ⟨hlt, hpos⟩ := hheld object rfl
      have hget : s.objects[object]? = some s.objects[object] := List.getElem?_eq_getElem hlt
      have hcount := h.refcount hget
      have hreleasable : Releasable rank _ s.objects object :=
        { ledger := h.ledger
          ranked := hranked
          settled := fun o obj hobj _ => h.settled o obj hobj
          credit := fun o _ => howed o
          counted := ⟨_, hget, by omega⟩ }
      obtain ⟨objects', hrelease, hreleased⟩ := release_spec hreleasable List.countP_le_length
      refine ⟨{ s with objects := objects' }, by rw [releasePtr, hrelease]; rfl, rfl,
        hreleased.shrinks, ⟨?_, ?_, ?_, ?_⟩, fun o habove => hreleased.above o (habove object rfl)⟩
      · have hextra : (fun o => (s.roots.count (some (some o)) : Int) + owed o -
            if o = object then 1 else 0) =
            fun o => s.roots.count (some (some o)) + (owed o - pointsTo (some object) o) := by
          funext o
          by_cases ho : o = object
          case pos =>
            rw [if_pos ho, ho, pointsTo_self]
            omega
          case neg =>
            rw [if_neg ho, pointsTo, if_neg fun heq => ho (Option.some.inj heq).symm]
            omega
        rw [← hextra]
        exact hreleased.ledger
      · intro o obj hobj
        by_cases hle : rank o ≤ rank object
        case pos => exact hreleased.settled o obj hobj hle
        case neg =>
          dsimp only at hobj
          rw [hreleased.above o (Nat.not_le.mp hle)] at hobj
          exact h.settled o obj hobj
      · intro o hroots
        exact hreleased.shrinks.length.symm ▸ h.inRange o hroots
      · exact h.room.mono (liveHandles_le_of_shrinks rfl hreleased.shrinks)

/-- A handle that was written before its copy counts is made up for. -/
theorem acquirePtr_spec (h : s.Balanced fun o => -pointsTo ptr o)
    (hheld : ∀ o, ptr = some o → ∃ obj, s.objects[o]? = some obj ∧ obj.refcount ≠ 0) :
    ∃ s', s.acquirePtr ptr = some s' ∧ s'.Balanced fun _ => 0 := by
  cases ptr with
  | none => exact ⟨s, rfl, by simpa using h⟩
  | some object =>
      obtain ⟨obj, hget, hne⟩ := hheld object rfl
      have hsettled := h.settled object obj hget
      rw [Object.Settled, if_neg hne] at hsettled
      have hcount := h.refcount hget
      have hle := s.handles_le_liveHandles object
      have hroom := h.room
      rw [HasRoom, sizeofSharedPtr] at hroom
      rw [pointsTo_self] at hcount
      have hmod : (obj.refcount + 1) % 2 ^ 64 = obj.refcount + 1 := Nat.mod_eq_of_lt (by omega)
      have hacquire : acquire s.objects object =
          some (s.objects.set object { obj with refcount := obj.refcount + 1 }) := by
        rw [acquire, hget, Option.bind_eq_bind, Option.bind_some,
          if_neg (not_not.mpr hsettled.1), hmod]
      refine ⟨_, by rw [acquirePtr, hacquire, Option.map_some], ⟨?_, ?_, ?_, ?_⟩⟩
      · refine h.ledger.set hget (fun _ hlt => absurd hlt (Nat.lt_irrefl _)) ?_ ?_ ?_
        · dsimp only
          omega
        · rw [pointsTo_self]
          dsimp only
          omega
        · intro o ho
          rw [pointsTo, if_neg fun heq => ho (Option.some.inj heq).symm]
          dsimp only
          omega
      · intro o other hother
        rcases of_getElem?_set hother with ⟨-, rfl⟩ | ⟨-, hother⟩
        · rw [Object.Settled, if_neg (Nat.succ_ne_zero _)]
          exact hsettled
        · exact h.settled o other hother
      · intro o hroots
        rw [List.length_set]
        exact h.inRange o hroots
      · have hsum := sum_map_set_add hget { obj with refcount := obj.refcount + 1 }
          fun obj => obj.fields.countP Option.isSome
        refine h.room.mono (Nat.le_of_eq ?_)
        rw [liveHandles, liveHandles]
        dsimp only at hsum ⊢
        omega

/-! ## Constructors and the destructor -/

theorem count_push (roots : List (Option SharedPtr)) (ptr : SharedPtr) (o : Nat) :
    (roots ++ [some ptr]).count (some (some o)) =
      roots.count (some (some o)) + pointsTo ptr o := by
  rw [List.count_append, List.count_singleton]
  simp only [pointsTo, beq_iff_eq, Option.some.injEq]

/-- A new handle. -/
theorem Balanced.push (h : s.Balanced fun _ => 0) (hroom : s.HasRoom 1)
    (hrange : ∀ o, ptr = some o → o < s.objects.length) :
    ({ s with roots := s.roots ++ [some ptr] } : SharedState).Balanced fun o =>
      -pointsTo ptr o where
  ledger := by
    have hextra : (fun o => ((s.roots ++ [some ptr]).count (some (some o)) : Int) +
        -pointsTo ptr o) = fun o => (s.roots.count (some (some o)) : Int) + 0 := by
      funext o
      have hcount := count_push s.roots ptr o
      omega
    rw [hextra]
    exact h.ledger
  settled := h.settled
  inRange o hpos := by
    have hcount := count_push s.roots ptr o
    dsimp only at hpos
    by_cases hptr : ptr = some o
    case pos => exact hrange o hptr
    case neg =>
      rw [pointsTo, if_neg hptr] at hcount
      exact h.inRange o (by omega)
  room := by
    refine hroom.mono ?_
    rw [liveHandles, liveHandles, List.countP_append]
    simp only [List.countP_singleton, Option.isSome_some, if_true]
    omega

theorem constructNull_balanced (h : s.Balanced fun _ => 0)
    (hconstruct : s.constructNull = some s') : s'.Balanced fun _ => 0 := by
  rw [constructNull] at hconstruct
  split at hconstruct
  case isTrue hroom =>
    obtain rfl := Option.some.inj hconstruct
    have hnull : ∀ o, (none : SharedPtr) = some o → o < s.objects.length := by simp
    simpa using h.push hroom hnull
  case isFalse => cases hconstruct

/-- A new object counts its first handle. -/
theorem construct_balanced {fields : Nat} (h : s.Balanced fun _ => 0)
    (hconstruct : s.construct fields = some s') : s'.Balanced fun _ => 0 := by
  rw [construct] at hconstruct
  split at hconstruct
  case isFalse => cases hconstruct
  case isTrue hroom =>
    obtain rfl := Option.some.inj hconstruct
    have hheld : ∀ o, held (s.objects ++
        [{ refcount := 1, fields := List.replicate fields (some none), deletions := 0 }]) o =
          held s.objects o := by
      intro o
      simp [held, List.count_replicate]
    have hfresh : held s.objects s.objects.length = 0 := Nat.eq_zero_of_not_pos fun hpos =>
      Nat.lt_irrefl _ (h.ledger.inRange _ hpos)
    have hfreshRoots : s.roots.count (some (some s.objects.length)) = 0 :=
      Nat.eq_zero_of_not_pos fun hpos => Nat.lt_irrefl _ (h.inRange _ hpos)
    refine ⟨⟨?_, ?_, ?_⟩, ?_, ?_, ?_⟩
    · intro o obj hget
      rw [hheld, count_push]
      rcases of_getElem?_append_singleton hget with ⟨hlt, hget⟩ | ⟨rfl, rfl⟩
      · have hcount := h.ledger.count o obj hget
        rw [pointsTo, if_neg fun heq => Nat.ne_of_gt hlt (Option.some.inj heq)]
        omega
      · rw [pointsTo_self, hfresh, hfreshRoots]
        rfl
    · intro o hpos
      rw [hheld] at hpos
      rw [List.length_append]
      exact Nat.lt_add_right _ (h.ledger.inRange o hpos)
    · intro o obj hget
      rcases of_getElem?_append_singleton hget with ⟨-, hget⟩ | ⟨-, rfl⟩
      · exact h.ledger.bounded o obj hget
      · show 1 < 2 ^ 64
        decide
    · intro o obj hget
      rcases of_getElem?_append_singleton hget with ⟨-, hget⟩ | ⟨-, rfl⟩
      · exact h.settled o obj hget
      · rw [Object.Settled, if_neg Nat.one_ne_zero]
        refine ⟨rfl, fun handle hmem => ?_⟩
        rw [List.eq_of_mem_replicate hmem]
        rfl
    · intro o hpos
      rw [count_push] at hpos
      rw [List.length_append, List.length_singleton]
      by_cases ho : some s.objects.length = some o
      case pos =>
        have hlength := Option.some.inj ho
        omega
      case neg =>
        rw [pointsTo, if_neg ho] at hpos
        exact Nat.lt_succ_of_lt (h.inRange o hpos)
    · refine hroom.mono ?_
      rw [liveHandles, liveHandles, List.countP_append, List.map_append, List.sum_append]
      simp only [List.countP_singleton, Option.isSome_some, if_true, List.map_cons, List.map_nil,
        List.sum_singleton, List.countP_replicate]
      omega

/-- The copy of a live handle. -/
theorem copy_spec {other : Place} (h : s.Balanced fun _ => 0) (hread : s.read other = some ptr)
    (hroom : s.HasRoom 1) : ∃ s', s.copy other = some s' ∧ s'.Balanced fun _ => 0 := by
  have hheld : ∀ o, ptr = some o → ∃ obj, s.objects[o]? = some obj ∧ obj.refcount ≠ 0 := by
    rintro o rfl
    obtain ⟨obj, hget⟩ := h.exists_object hread
    have hpos := handles_pos_iff.mpr ⟨other, hread⟩
    have hcount := h.refcount hget
    exact ⟨obj, hget, by omega⟩
  have hpush := h.push hroom fun o hptr => by
    obtain ⟨obj, hget, -⟩ := hheld o hptr
    exact (List.getElem?_eq_some_iff.mp hget).1
  obtain ⟨s', hacquire, hbalanced⟩ := acquirePtr_spec hpush hheld
  refine ⟨s', ?_, hbalanced⟩
  rw [copy, hread, Option.bind_eq_bind, Option.bind_some, if_pos hroom, hacquire]

/-- The destructor of a live handle. -/
theorem destroy_spec {index : Nat} (h : s.Balanced fun _ => 0)
    (hacyclic : Acyclic (PointsTo s.objects)) (hread : s.read (.root index) = some ptr) :
    ∃ s', s.destroy index = some s' ∧ s'.Balanced fun _ => 0 := by
  obtain ⟨rank, hranked⟩ := h.exists_ranks hacyclic
  have hget := read_root_iff.mp hread
  have hcount : ∀ o, (s.roots.set index none).count (some (some o)) + pointsTo ptr o =
      s.roots.count (some (some o)) := count_set_destroyed hget
  have hbalanced : ({ s with roots := s.roots.set index none } : SharedState).Balanced fun o =>
      pointsTo ptr o := by
    refine ⟨?_, h.settled, ?_, ?_⟩
    · have hextra : (fun o => ((s.roots.set index none).count (some (some o)) : Int) +
          pointsTo ptr o) = fun o => (s.roots.count (some (some o)) : Int) + 0 := by
        funext o
        have hcountO := hcount o
        omega
      rw [hextra]
      exact h.ledger
    · intro o hpos
      have hcountO := hcount o
      dsimp only at hpos
      exact h.inRange o (by omega)
    · have hcountP := countP_isSome_set_none hget
      refine h.room.mono ?_
      rw [liveHandles, liveHandles]
      dsimp only
      omega
  have hheld : ∀ o, ptr = some o → o < s.objects.length ∧
      0 < ({ s with roots := s.roots.set index none } : SharedState).handles o +
        (pointsTo ptr o : Int) := by
    rintro o rfl
    obtain ⟨obj, hobj⟩ := h.exists_object hread
    refine ⟨(List.getElem?_eq_some_iff.mp hobj).1, ?_⟩
    rw [pointsTo_self]
    omega
  obtain ⟨s', hrelease, hafter⟩ := releasePtr_spec hbalanced hranked (fun o => by omega) hheld
  refine ⟨s', ?_, by simpa using hafter.balanced⟩
  rw [destroy, hread, Option.bind_eq_bind, Option.bind_some, hrelease]

/-! ## The assignment -/

namespace AfterRelease

variable {rank : Nat → Nat} {place other : Place} {old : SharedPtr}

/-- The handle that is assigned is as it was. -/
theorem read_place (h : AfterRelease rank owed s s' old) (hranked : Ranks rank (PointsTo s.objects))
    (hread : s.read place = some old) : s'.read place = some old := by
  cases place with
  | root index => rwa [read, h.roots]
  | field object index =>
      have habove : ∀ target, old = some target → rank target < rank object := by
        rintro target rfl
        obtain ⟨obj, hobject, hget⟩ := read_field_iff.mp hread
        exact hranked object target ⟨obj, hobject, List.mem_of_getElem? hget⟩
      rwa [read, h.above object habove]

/-- What is still read was read before. -/
theorem read_before (h : AfterRelease rank owed s s' old) (hread : s'.read other = some ptr) :
    s.read other = some ptr := by
  cases other with
  | root index => rwa [read, h.roots] at hread
  | field object index =>
      obtain ⟨obj', hobject', hget⟩ := read_field_iff.mp hread
      obtain ⟨obj, hobject, hshrunk⟩ := h.shrinks.exists_before hobject'
      have hne := h.balanced.refcount_ne_zero hobject' (List.mem_of_getElem? hget) rfl
      rw [hshrunk.fields hne] at hget
      exact read_field_iff.mpr ⟨obj, hobject, hget⟩

/-- A field is still read if its object is held. -/
theorem read_field (h : AfterRelease rank owed s s' old) {object index : Nat}
    (hread : s.read (.field object index) = some ptr) :
    s'.read (.field object index) = some ptr ↔
      ∃ obj', s'.objects[object]? = some obj' ∧ obj'.refcount ≠ 0 := by
  obtain ⟨obj, hobject, hget⟩ := read_field_iff.mp hread
  rw [read_field_iff]
  constructor
  · rintro ⟨obj', hobject', hget'⟩
    exact ⟨obj', hobject', h.balanced.refcount_ne_zero hobject' (List.mem_of_getElem? hget') rfl⟩
  · rintro ⟨obj', hobject', hne⟩
    have hshrunk := h.shrinks.shrunk object obj obj' hobject hobject'
    exact ⟨obj', hobject', by rwa [hshrunk.fields hne]⟩

/-- After the release an object is held where the program reaches it without the handle that is
assigned. -/
theorem anchored_iff (h : AfterRelease rank (fun _ => 0) s s' old)
    (hranked : Ranks rank (PointsTo s.objects)) (hread : s.read place = some old) {o : Nat} :
    s.Anchored place o ↔ ∃ obj', s'.objects[o]? = some obj' ∧ obj'.refcount ≠ 0 := by
  have hbalanced : s'.Balanced fun o => -pointsTo old o := by simpa using h.balanced
  have hplace := h.read_place hranked hread
  have hheld : ∀ o, (∃ obj', s'.objects[o]? = some obj' ∧ obj'.refcount ≠ 0) ↔
      ∃ other, other ≠ place ∧ s'.read other = some (some o) := by
    intro o
    constructor
    · rintro ⟨obj', hget, hne⟩
      exact (hbalanced.refcount_iff hplace hget).mp hne
    · rintro ⟨other, hne, hother⟩
      obtain ⟨obj', hget⟩ := hbalanced.exists_object hother
      exact ⟨obj', hget, (hbalanced.refcount_iff hplace hget).mpr ⟨other, hne, hother⟩⟩
  constructor
  · intro hanchored
    induction hanchored with
    | root hne hroot => exact (hheld _).mpr ⟨_, hne, by rwa [read, h.roots]⟩
    | field _ hne hfield ih => exact (hheld _).mpr ⟨_, hne, (h.read_field hfield).mpr ih⟩
  · -- from the objects that hold it down: there are finitely many of them
    have hdown : ∀ o, (∃ obj', s'.objects[o]? = some obj' ∧ obj'.refcount ≠ 0) →
        rank o ≤ (Finset.range s'.objects.length).sup rank := by
      rintro o ⟨obj', hget, -⟩
      exact Finset.le_sup (Finset.mem_range.mpr (List.getElem?_eq_some_iff.mp hget).1)
    refine hranked.induction_down hdown ?_
    intro o ho ih
    obtain ⟨other, hne, hother⟩ := (hheld o).mp ho
    have hbefore := h.read_before hother
    cases other with
    | root index => exact .root hne hbefore
    | field object index =>
        obtain ⟨obj, hobject, hget⟩ := read_field_iff.mp hbefore
        have hholder := (h.read_field hbefore).mp hother
        exact .field (ih object hholder ⟨obj, hobject, List.mem_of_getElem? hget⟩) hne hbefore

/-- The handle that is assigned from is still there if it does not depend on the one that is
assigned to. -/
theorem survives_iff (h : AfterRelease rank (fun _ => 0) s s' old)
    (hranked : Ranks rank (PointsTo s.objects)) (hplace : s.read place = some old)
    (hne : place ≠ other) (hother : s.read other = some ptr) :
    s.Survives place other ↔ s'.read other = some ptr := by
  rw [Survives, or_iff_right hne]
  cases other with
  | root index =>
      have hread : s'.read (.root index) = some ptr := by rwa [read, h.roots]
      simp [hread]
  | field object index =>
      rw [h.read_field hother, ← h.anchored_iff hranked hplace]
      constructor
      · intro hall
        exact hall object index rfl
      · rintro hanchored holder index' heq
        obtain ⟨rfl, rfl⟩ := Place.field.inj heq
        exact hanchored

end AfterRelease

/-- What a live handle holds can be released. -/
theorem exists_release {place : Place} {old : SharedPtr} (h : s.Balanced fun _ => 0)
    (hacyclic : Acyclic (PointsTo s.objects)) (hread : s.read place = some old) :
    ∃ rank s', Ranks rank (PointsTo s.objects) ∧ s.releasePtr old = some s' ∧
      AfterRelease rank (fun _ => 0) s s' old := by
  obtain ⟨rank, hranked⟩ := h.exists_ranks hacyclic
  have hheld : ∀ o, old = some o → o < s.objects.length ∧ 0 < (s.handles o : Int) + 0 := by
    rintro o rfl
    obtain ⟨obj, hget⟩ := h.exists_object hread
    have hpos := handles_pos_iff.mpr ⟨place, hread⟩
    exact ⟨(List.getElem?_eq_some_iff.mp hget).1, by omega⟩
  obtain ⟨s', hrelease, hafter⟩ := releasePtr_spec h hranked (fun o => by omega) hheld
  exact ⟨rank, s', hranked, hrelease, hafter⟩

/-- The rest of an assignment whose other handle is still there. -/
theorem write_acquire_spec {place other : Place} {old : SharedPtr}
    (h : s.Balanced fun o => -pointsTo old o) (hplace : s.read place = some old)
    (hother : s.read other = some ptr) (hne : other ≠ place) :
    ∃ t s', s.write ptr place = some t ∧ t.acquirePtr ptr = some s' ∧
      s'.Balanced fun _ => 0 := by
  have hheld : ∀ o, ptr = some o → ∃ obj, s.objects[o]? = some obj ∧ obj.refcount ≠ 0 := by
    rintro o rfl
    obtain ⟨obj, hget⟩ := h.exists_object hother
    exact ⟨obj, hget, (h.refcount_iff hplace hget).mpr ⟨other, hne, hother⟩⟩
  obtain ⟨t, hwrite, hwritten⟩ := write_spec hplace ptr
  have hbalanced := hwritten.balanced _ h fun o heq => by
    obtain ⟨obj, hget, -⟩ := hheld o heq
    exact (List.getElem?_eq_some_iff.mp hget).1
  have hheld' : ∀ o, ptr = some o → ∃ obj, t.objects[o]? = some obj ∧ obj.refcount ≠ 0 := by
    intro o heq
    obtain ⟨obj, hget, hcount⟩ := hheld o heq
    have hmap := hwritten.refcount o
    rw [hget] at hmap
    obtain ⟨obj', hget', hrefcount⟩ := Option.map_eq_some_iff.mp hmap
    exact ⟨obj', hget', hrefcount ▸ hcount⟩
  obtain ⟨s', hacquire, hbalanced'⟩ := acquirePtr_spec (by simpa using hbalanced) hheld'
  exact ⟨t, s', hwrite, hacquire, hbalanced'⟩

/-- An assignment succeeds if the other handle is still there after the release, and then the
counters are right again. -/
theorem assign_spec {place other : Place} {old : SharedPtr} (h : s.Balanced fun _ => 0)
    (hacyclic : Acyclic (PointsTo s.objects)) (hplace : s.read place = some old)
    (hne : place ≠ other) :
    ∃ rank s₁, Ranks rank (PointsTo s.objects) ∧ AfterRelease rank (fun _ => 0) s s₁ old ∧
      match s₁.read other with
      | none => s.assign place other = none
      | some _ => ∃ s', s.assign place other = some s' ∧ s'.Balanced fun _ => 0 := by
  obtain ⟨rank, s₁, hranked, hrelease, hafter⟩ := exists_release h hacyclic hplace
  refine ⟨rank, s₁, hranked, hafter, ?_⟩
  rw [assign, if_neg hne, hplace, Option.bind_eq_bind, Option.bind_some, hrelease,
    Option.bind_eq_bind, Option.bind_some]
  cases hread : s₁.read other with
  | none => rfl
  | some ptr =>
      obtain ⟨t, s', hwrite, hacquire, hbalanced⟩ := write_acquire_spec
        (by simpa using hafter.balanced) (hafter.read_place hranked hplace) hread (Ne.symm hne)
      exact ⟨s', by simp only [Option.bind_some, hwrite, hacquire], hbalanced⟩

/-! ## Safety -/

/-- Every counter is the number of live handles of its object, which was deleted once if it has
none left, and not before. -/
structure IsExact (s : SharedState) : Prop where
  inRange : ∀ place o, s.read place = some (some o) → o < s.objects.length
  count : ∀ (o : Nat) obj, s.objects[o]? = some obj → obj.refcount = s.handles o
  deleted : ∀ (o : Nat) obj, s.objects[o]? = some obj →
    obj.deletions = if s.handles o = 0 then 1 else 0

/-- The handles that the program names are live, and there are addresses for the new ones. -/
def Allows (s : SharedState) : SharedAction → Prop
  | .constructNull => s.HasRoom 1
  | .construct fields => s.HasRoom (fields + 1)
  | .copy other => (s.read other).isSome ∧ s.HasRoom 1
  | .destroy index => (s.read (.root index)).isSome
  | .assign place other => (s.read place).isSome ∧ (s.read other).isSome

/-- The step reads no handle that it destroys. -/
def ReadsLive (s : SharedState) : SharedAction → Prop
  | .assign place other => s.Survives place other
  | _ => True

theorem Balanced.isExact (h : s.Balanced fun _ => 0) : s.IsExact where
  inRange place o hread := by
    obtain ⟨obj, hget⟩ := h.exists_object hread
    exact (List.getElem?_eq_some_iff.mp hget).1
  count o obj hget := by
    have hcount := h.refcount hget
    omega
  deleted o obj hget := by
    have hcount := h.refcount hget
    have hsettled := h.settled o obj hget
    rw [Object.Settled] at hsettled
    by_cases hzero : s.handles o = 0
    case pos =>
      rw [if_pos (by omega)] at hsettled
      rw [if_pos hzero, hsettled.1]
    case neg =>
      rw [if_neg (by omega)] at hsettled
      rw [if_neg hzero, hsettled.1]

/-- A step that the program may take succeeds if it reads no handle that it destroys. -/
theorem Balanced.step_isSome_iff (h : s.Balanced fun _ => 0)
    (hacyclic : Acyclic (PointsTo s.objects)) {a : SharedAction} (hallows : s.Allows a) :
    (s.step a).isSome ↔ s.ReadsLive a := by
  cases a with
  | constructNull =>
      rw [step, constructNull, if_pos (show s.HasRoom 1 from hallows)]
      exact iff_of_true rfl trivial
  | construct fields =>
      rw [step, construct, if_pos (show s.HasRoom (fields + 1) from hallows)]
      exact iff_of_true rfl trivial
  | copy other =>
      obtain ⟨ptr, hread⟩ := Option.isSome_iff_exists.mp hallows.1
      obtain ⟨s', hcopy, -⟩ := copy_spec h hread hallows.2
      rw [step, hcopy]
      exact iff_of_true rfl trivial
  | destroy index =>
      obtain ⟨ptr, hread⟩ := Option.isSome_iff_exists.mp hallows
      obtain ⟨s', hdestroy, -⟩ := destroy_spec h hacyclic hread
      rw [step, hdestroy]
      exact iff_of_true rfl trivial
  | assign place other =>
      obtain ⟨old, hplace⟩ := Option.isSome_iff_exists.mp hallows.1
      obtain ⟨ptr, hother⟩ := Option.isSome_iff_exists.mp hallows.2
      by_cases hne : place = other
      case pos =>
        rw [step, assign, if_pos hne]
        exact iff_of_true rfl (Or.inl hne)
      case neg =>
        -- the assignment reads the other handle after the release
        obtain ⟨rank, s₁, hranked, hafter, hassign⟩ := assign_spec h hacyclic hplace hne
        rw [ReadsLive, hafter.survives_iff hranked hplace hne hother, step]
        cases hread : s₁.read other with
        | none =>
            rw [hread] at hassign
            rw [hassign]
            simp
        | some ptr₁ =>
            rw [hread] at hassign
            obtain ⟨s', hs', -⟩ := hassign
            rw [hs']
            exact iff_of_true rfl ((hafter.read_before hread).symm.trans hother)

/-- A step keeps the counters. -/
theorem Balanced.step (h : s.Balanced fun _ => 0) (hacyclic : Acyclic (PointsTo s.objects))
    {a : SharedAction} (hstep : s.step a = some s') : s'.Balanced fun _ => 0 := by
  cases a with
  | constructNull => exact constructNull_balanced h hstep
  | construct fields => exact construct_balanced h hstep
  | copy other =>
      have hcopy : s.copy other = some s' := hstep
      obtain ⟨ptr, hread, hrest⟩ := Option.bind_eq_some_iff.mp hcopy
      split at hrest
      case isTrue hroom =>
        obtain ⟨t, ht, hbalanced⟩ := copy_spec h hread hroom
        obtain rfl := Option.some.inj (ht.symm.trans hcopy)
        exact hbalanced
      case isFalse => cases hrest
  | destroy index =>
      have hdestroy : s.destroy index = some s' := hstep
      obtain ⟨ptr, hread, -⟩ := Option.bind_eq_some_iff.mp hdestroy
      obtain ⟨t, ht, hbalanced⟩ := destroy_spec h hacyclic hread
      obtain rfl := Option.some.inj (ht.symm.trans hdestroy)
      exact hbalanced
  | assign place other =>
      have hassign : s.assign place other = some s' := hstep
      by_cases hne : place = other
      case pos =>
        rw [assign, if_pos hne] at hassign
        obtain rfl := Option.some.inj hassign
        exact h
      case neg =>
        have hread : ∃ old, s.read place = some old := by
          rw [assign, if_neg hne] at hassign
          obtain ⟨old, hold, -⟩ := Option.bind_eq_some_iff.mp hassign
          exact ⟨old, hold⟩
        obtain ⟨old, hplace⟩ := hread
        obtain ⟨rank, s₁, -, -, hcases⟩ := assign_spec h hacyclic hplace hne
        split at hcases
        · rw [hcases] at hassign
          cases hassign
        · obtain ⟨t, ht, hbalanced⟩ := hcases
          obtain rfl := Option.some.inj (ht.symm.trans hassign)
          exact hbalanced

/-- Without objects and handles nothing is owed. -/
theorem balanced_nil : (⟨[], []⟩ : SharedState).Balanced fun _ => 0 where
  ledger := ⟨fun _ _ hget => by simp at hget, fun _ hpos => by simp [held] at hpos,
    fun _ _ hget => by simp at hget⟩
  settled _ _ hget := by simp at hget
  inRange _ hpos := by simp at hpos
  room := by decide

theorem acyclic_nil : Acyclic (PointsTo []) := by
  have hranks : Ranks (fun _ => 0) (PointsTo []) := by
    rintro o target ⟨obj, hget, -⟩
    simp at hget
  exact hranks.acyclic

end SharedState

theorem sharedMachine_balanced {s : SharedState}
    (h : sharedMachine.ReachedBy SharedState.KeepsAcyclic s) :
    (s.Balanced fun _ => 0) ∧ Acyclic (PointsTo s.objects) := by
  induction h with
  | start hstart =>
      obtain rfl := hstart
      exact ⟨SharedState.balanced_nil, SharedState.acyclic_nil⟩
  | step _ hguard hstep ih => exact ⟨ih.1.step ih.2 hstep, hguard _ hstep⟩

/-! ## Graphs in the order of the objects -/

/-- The fields lead to objects that were made later. -/
def Forward (objects : List Object) : Prop :=
  ∀ o : Fin objects.length, ∀ handle ∈ objects[o].fields, ∀ target ∈ handle.join,
    o < target ∧ target < objects.length

instance (objects : List Object) : Decidable (Forward objects) :=
  inferInstanceAs (Decidable (∀ _ : Fin objects.length, _))

theorem Forward.acyclic {objects : List Object} (h : Forward objects) :
    Acyclic (PointsTo objects) := by
  have hranks : Ranks (fun o => objects.length - o) (PointsTo objects) := by
    rintro o target ⟨obj, hget, hmem⟩
    obtain ⟨hlt, rfl⟩ := List.getElem?_eq_some_iff.mp hget
    have hforward := h ⟨o, hlt⟩ _ hmem target rfl
    dsimp only at hforward ⊢
    omega
  exact hranks.acyclic

/-- A guard that can be decided. -/
def SharedState.KeepsForward (s : SharedState) (a : SharedAction) : Prop :=
  ∀ s' ∈ s.step a, Forward s'.objects

instance (s : SharedState) (a : SharedAction) : Decidable (s.KeepsForward a) :=
  inferInstanceAs (Decidable (∀ s' ∈ s.step a, _))

theorem SharedState.KeepsForward.keepsAcyclic {s : SharedState} {a : SharedAction}
    (h : s.KeepsForward a) : s.KeepsAcyclic a := fun s' hstep => (h s' hstep).acyclic

/-- A run on a list of actions that keeps to the order of the objects. -/
theorem reachedBy_of_forward {s : SharedState} {actions : List SharedAction}
    (hforward : sharedMachine.Admits SharedState.KeepsForward ⟨[], []⟩ actions)
    (hrun : sharedMachine.run ⟨[], []⟩ actions = some s) :
    sharedMachine.ReachedBy SharedState.KeepsAcyclic s :=
  Machine.ReachedBy.mono (fun _ _ => SharedState.KeepsForward.keepsAcyclic)
    (Machine.ReachedBy.run (.start rfl) hforward hrun)

/-! ## The theorem -/

/-- In every run whose objects stay an acyclic graph the counters are exact, and a step that the
program may take succeeds just if it reads no handle that it destroys. -/
theorem sharedPtr_safe {s : SharedState}
    (h : sharedMachine.ReachedBy SharedState.KeepsAcyclic s) :
    s.IsExact ∧ ∀ a, s.Allows a → ((s.step a).isSome ↔ s.ReadsLive a) := by
  obtain ⟨hbalanced, hacyclic⟩ := sharedMachine_balanced h
  exact ⟨hbalanced.isExact, fun a => hbalanced.step_isSome_iff hacyclic⟩

/-- A list of two nodes, and a handle of the first. -/
def twoNodes : List SharedAction :=
  [.construct 1, .construct 0, .assign (.field 0 0) (.root 1), .destroy 1]

/-- With a second handle of the first node, the first is moved on to the next node. -/
theorem sharedPtr_safe_twoHeads :
    ∃ s, sharedMachine.run ⟨[], []⟩ (twoNodes ++ [.copy (.root 0)]) = some s ∧
      s.objects.map Object.refcount = [2, 1] ∧ s.IsExact ∧
      (s.step (.assign (.root 0) (.field 0 0))).isSome := by
  have hrun : sharedMachine.run ⟨[], []⟩ (twoNodes ++ [.copy (.root 0)]) = some _ := rfl
  obtain ⟨hexact, hstep⟩ := sharedPtr_safe (reachedBy_of_forward (by decide) hrun)
  refine ⟨_, hrun, rfl, hexact, (hstep (.assign (.root 0) (.field 0 0)) ⟨rfl, rfl⟩).mpr ?_⟩
  refine Or.inr fun holder index heq => ?_
  obtain ⟨rfl, rfl⟩ := Place.field.inj heq
  have hne : Place.root 2 ≠ .root 0 := by decide
  exact .root hne rfl

/-- Without one the first node is deleted, and with it the handle that is assigned from, which
is then read. -/
theorem sharedPtr_fails :
    ∃ s, sharedMachine.ReachedBy SharedState.KeepsAcyclic s ∧
      s.Allows (.assign (.root 0) (.field 0 0)) ∧
      (s.releasePtr (some 0)).map (fun s => s.read (.field 0 0)) = some none ∧
      s.step (.assign (.root 0) (.field 0 0)) = none := by
  have hrun : sharedMachine.run ⟨[], []⟩ twoNodes = some _ := rfl
  exact ⟨_, reachedBy_of_forward (by decide) hrun, ⟨rfl, rfl⟩, rfl, rfl⟩

end Cpp
end InfinityLabs
