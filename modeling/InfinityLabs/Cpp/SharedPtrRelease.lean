import InfinityLabs.Cpp.SharedPtr
import InfinityLabs.Lib.ListParts

/-!
# The release of a shared pointer

A release deletes the object if its counter falls to zero, and with its fields whatever was held
by them alone.  The fields lead to objects of a lower rank, so the object itself and those above
it are left alone meanwhile.  The induction is on the number of objects that are held: a nested
destructor runs when one less is.
-/

namespace InfinityLabs
namespace Cpp

open Lib

/-! ## Counters and fields -/

/-- The number of live fields that hold an object. -/
def held (objects : List Object) (target : Nat) : Nat :=
  (objects.map fun obj => obj.fields.count (some (some target))).sum

/-- The number of objects that are held. -/
def alive (objects : List Object) : Nat := objects.countP fun obj => obj.refcount != 0

/-- An object that is held has all its fields, and one that is not was deleted once and has none
left. -/
def Object.Settled (obj : Object) : Prop :=
  if obj.refcount = 0 then obj.deletions = 1 ∧ ∀ h ∈ obj.fields, h = none
  else obj.deletions = 0 ∧ ∀ h ∈ obj.fields, h.isSome

/-- A counter is the number of fields that hold the object, and of what else does. -/
structure Ledger (objects : List Object) (extra : Nat → Int) : Prop where
  count : ∀ (o : Nat) obj, objects[o]? = some obj → (obj.refcount : Int) = held objects o + extra o
  inRange : ∀ o, 0 < held objects o → o < objects.length
  bounded : ∀ (o : Nat) obj, objects[o]? = some obj → obj.refcount < 2 ^ 64

/-- A counter may have fallen and fields may have been destroyed, but not those of an object that
is held. -/
structure Shrunk (obj obj' : Object) : Prop where
  refcount : obj'.refcount ≤ obj.refcount
  fields : obj'.refcount ≠ 0 → obj'.fields = obj.fields
  mem : ∀ h ∈ obj'.fields, h = none ∨ h ∈ obj.fields
  live : obj'.fields.countP Option.isSome ≤ obj.fields.countP Option.isSome

/-- The objects have shrunk. -/
structure Shrinks (objects objects' : List Object) : Prop where
  length : objects'.length = objects.length
  shrunk : ∀ (o : Nat) obj obj', objects[o]? = some obj → objects'[o]? = some obj' →
    Shrunk obj obj'

/-- An object before and after. -/
theorem Shrinks.exists_before {objects objects' : List Object} (h : Shrinks objects objects')
    {o : Nat} {obj' : Object} (hget : objects'[o]? = some obj') :
    ∃ obj, objects[o]? = some obj ∧ Shrunk obj obj' := by
  have hlt : o < objects.length := h.length ▸ (List.getElem?_eq_some_iff.mp hget).1
  have hbefore : objects[o]? = some objects[o] := List.getElem?_eq_getElem hlt
  exact ⟨_, hbefore, h.shrunk o _ _ hbefore hget⟩

theorem Shrinks.exists_after {objects objects' : List Object} (h : Shrinks objects objects')
    {o : Nat} {obj : Object} (hget : objects[o]? = some obj) :
    ∃ obj', objects'[o]? = some obj' ∧ Shrunk obj obj' := by
  have hlt : o < objects'.length := h.length.symm ▸ (List.getElem?_eq_some_iff.mp hget).1
  have hafter : objects'[o]? = some objects'[o] := List.getElem?_eq_getElem hlt
  exact ⟨_, hafter, h.shrunk o _ _ hget hafter⟩

/-- A change that leaves the fields. -/
theorem Shrunk.of_fields {obj obj' : Object} (hle : obj'.refcount ≤ obj.refcount)
    (hfields : obj'.fields = obj.fields) : Shrunk obj obj' where
  refcount := hle
  fields _ := hfields
  mem _ hmem := Or.inr (hfields ▸ hmem)
  live := Nat.le_of_eq (congrArg _ hfields)

theorem Shrunk.refl (obj : Object) : Shrunk obj obj := .of_fields (Nat.le_refl _) rfl

theorem Shrinks.refl (objects : List Object) : Shrinks objects objects := by
  refine ⟨rfl, ?_⟩
  intro o obj obj' hget hget'
  obtain rfl := Option.some.inj (hget.symm.trans hget')
  exact Shrunk.refl obj

theorem Shrunk.trans {obj obj' obj'' : Object} (h : Shrunk obj obj') (h' : Shrunk obj' obj'') :
    Shrunk obj obj'' where
  refcount := Nat.le_trans h'.refcount h.refcount
  fields hne := by
    have hne' : obj'.refcount ≠ 0 := by
      have hle := h'.refcount
      omega
    rw [h'.fields hne, h.fields hne']
  mem handle hhandle := by
    rcases h'.mem handle hhandle with hnone | hhandle'
    · exact Or.inl hnone
    · exact h.mem handle hhandle'
  live := Nat.le_trans h'.live h.live

theorem Shrinks.trans {objects objects' objects'' : List Object} (h : Shrinks objects objects')
    (h' : Shrinks objects' objects'') : Shrinks objects objects'' := by
  refine ⟨h'.length.trans h.length, ?_⟩
  intro o obj obj'' hget hget''
  obtain ⟨obj', hget', hshrunk⟩ := h.exists_after hget
  exact hshrunk.trans (h'.shrunk o obj' obj'' hget' hget'')

/-- One object shrinks. -/
theorem Shrinks.set {objects : List Object} {o : Nat} {obj obj' : Object}
    (hget : objects[o]? = some obj) (hshrunk : Shrunk obj obj') :
    Shrinks objects (objects.set o obj') := by
  refine ⟨List.length_set, ?_⟩
  intro p before after hbefore hafter
  rcases of_getElem?_set hafter with ⟨rfl, rfl⟩ | ⟨-, hafter⟩
  · obtain rfl := Option.some.inj (hget.symm.trans hbefore)
    exact hshrunk
  · obtain rfl := Option.some.inj (hbefore.symm.trans hafter)
    exact Shrunk.refl _

/-- The ranks stay. -/
theorem Shrinks.ranked {objects objects' : List Object} {rank : Nat → Nat}
    (h : Shrinks objects objects') (hranked : Ranks rank (PointsTo objects)) :
    Ranks rank (PointsTo objects') := by
  rintro o target ⟨obj', hget, htarget⟩
  obtain ⟨obj, hbefore, hshrunk⟩ := h.exists_before hget
  rcases hshrunk.mem _ htarget with hnone | hmem
  · cases hnone
  · exact hranked o target ⟨obj, hbefore, hmem⟩

/-- No more objects are held. -/
theorem Shrinks.alive_le {objects objects' : List Object} (h : Shrinks objects objects') :
    alive objects' ≤ alive objects := by
  refine countP_le_of_getElem? h.length ?_
  intro o obj obj' hget hget' hne
  have hle := (h.shrunk o obj obj' hget hget').refcount
  rw [bne_iff_ne] at hne ⊢
  omega

/-! ## A change of one object -/

/-- How an object that is changed counts. -/
theorem held_set_add {objects : List Object} {o : Nat} {obj : Object}
    (hget : objects[o]? = some obj) (obj' : Object) (target : Nat) :
    held (objects.set o obj') target + obj.fields.count (some (some target)) =
      held objects target + obj'.fields.count (some (some target)) :=
  sum_map_set_add hget obj' _

/-- A change of one object that balances. -/
theorem Ledger.set {objects : List Object} {extra extra' : Nat → Int} {o : Nat}
    {obj obj' : Object} (h : Ledger objects extra) (hget : objects[o]? = some obj)
    (hrange : ∀ p, obj.fields.count (some (some p)) < obj'.fields.count (some (some p)) →
      p < objects.length)
    (hbounded : obj'.refcount < 2 ^ 64)
    (hself : (obj'.refcount : Int) - obj.refcount = obj'.fields.count (some (some o)) -
      obj.fields.count (some (some o)) + (extra' o - extra o))
    (hothers : ∀ p, p ≠ o → (0 : Int) = obj'.fields.count (some (some p)) -
      obj.fields.count (some (some p)) + (extra' p - extra p)) :
    Ledger (objects.set o obj') extra' where
  count p after hafter := by
    have hheld := held_set_add hget obj' p
    rcases of_getElem?_set hafter with ⟨rfl, rfl⟩ | ⟨hne, hafter⟩
    · have hcount := h.count p obj hget
      omega
    · have hcount := h.count p after hafter
      have hother := hothers p hne
      omega
  inRange p hpos := by
    have hheld := held_set_add hget obj' p
    rw [List.length_set]
    by_cases hlt : obj.fields.count (some (some p)) < obj'.fields.count (some (some p))
    case pos => exact hrange p hlt
    case neg => exact h.inRange p (by omega)
  bounded p after hafter := by
    rcases of_getElem?_set hafter with ⟨-, rfl⟩ | ⟨-, hafter⟩
    · exact hbounded
    · exact h.bounded p after hafter

/-- A change of one object that is still held, or was not. -/
theorem alive_set_add {objects : List Object} {o : Nat} {obj : Object}
    (hget : objects[o]? = some obj) (obj' : Object) :
    alive (objects.set o obj') + (if obj.refcount != 0 then 1 else 0) =
      alive objects + if obj'.refcount != 0 then 1 else 0 :=
  countP_set_add hget obj'

/-! ## The release -/

/-- The objects up to the rank of the one that is released are settled, and nothing is owed below
it. -/
structure Releasable (rank : Nat → Nat) (extra : Nat → Int) (objects : List Object)
    (object : Nat) : Prop where
  ledger : Ledger objects extra
  ranked : Ranks rank (PointsTo objects)
  settled : ∀ (o : Nat) obj, objects[o]? = some obj → rank o ≤ rank object → obj.Settled
  credit : ∀ o, rank o < rank object → 0 ≤ extra o
  counted : ∃ obj, objects[object]? = some obj ∧ obj.refcount ≠ 0

/-- The object is held once less, and what lies above it is as it was. -/
structure Released (rank : Nat → Nat) (extra : Nat → Int) (objects : List Object) (object : Nat)
    (objects' : List Object) : Prop where
  ledger : Ledger objects' fun o => extra o - if o = object then 1 else 0
  shrinks : Shrinks objects objects'
  settled : ∀ (o : Nat) obj, objects'[o]? = some obj → rank o ≤ rank object → obj.Settled
  above : ∀ o : Nat, rank object < rank o → objects'[o]? = objects[o]?

/-- An object in destruction, whose lowest `n` fields are left. -/
structure Dying (rank : Nat → Nat) (extra : Nat → Int) (objects : List Object) (object n : Nat)
    (obj : Object) : Prop where
  ledger : Ledger objects extra
  ranked : Ranks rank (PointsTo objects)
  settled : ∀ (o : Nat) obj, objects[o]? = some obj → rank o < rank object → obj.Settled
  credit : ∀ o, rank o < rank object → 0 ≤ extra o
  get : objects[object]? = some obj
  refcount : obj.refcount = 0
  left : n ≤ obj.fields.length
  live : ∀ (i : Nat) handle, obj.fields[i]? = some handle → i < n → handle.isSome
  destroyed : ∀ (i : Nat) handle, obj.fields[i]? = some handle → n ≤ i → handle = none

/-- The object has no fields left, and what does not lie below it is as it was. -/
structure Destroyed (rank : Nat → Nat) (extra : Nat → Int) (objects : List Object) (object : Nat)
    (obj : Object) (objects' : List Object) : Prop where
  ledger : Ledger objects' extra
  shrinks : Shrinks objects objects'
  settled : ∀ (o : Nat) obj, objects'[o]? = some obj → rank o < rank object → obj.Settled
  above : ∀ o : Nat, rank object ≤ rank o → o ≠ object → objects'[o]? = objects[o]?
  get : ∃ fields, objects'[object]? = some { obj with fields } ∧ ∀ h ∈ fields, h = none

/-- A field whose destructor has started counts no more. -/
theorem count_set_destroyed {fields : List (Option SharedPtr)} {n : Nat} {ptr : SharedPtr}
    (hfield : fields[n]? = some (some ptr)) (p : Nat) :
    (fields.set n none).count (some (some p)) + (if ptr = some p then 1 else 0) =
      fields.count (some (some p)) := by
  have hcount := count_set_add hfield none (some (some p))
  by_cases hp : ptr = some p
  case pos => simpa [hp] using hcount
  case neg => simpa [hp] using hcount

namespace Dying

variable {rank : Nat → Nat} {extra : Nat → Int} {objects : List Object} {object n : Nat}
  {obj : Object}

/-- The next field to be destroyed is live. -/
theorem exists_field (h : Dying rank extra objects object (n + 1) obj) :
    ∃ ptr, obj.fields[n]? = some (some ptr) := by
  have hlt : n < obj.fields.length := h.left
  have hget : obj.fields[n]? = some obj.fields[n] := List.getElem?_eq_getElem hlt
  obtain ⟨ptr, hptr⟩ := Option.isSome_iff_exists.mp (h.live n _ hget (Nat.lt_succ_self n))
  exact ⟨ptr, hget.trans (congrArg some hptr)⟩

/-- A field that is destroyed. -/
theorem shrunk (h : Dying rank extra objects object n obj) {i : Nat} {ptr : SharedPtr}
    (hfield : obj.fields[i]? = some (some ptr)) :
    Shrunk obj { obj with fields := obj.fields.set i none } where
  refcount := Nat.le_refl _
  fields hne := absurd h.refcount hne
  mem handle hmem := (List.mem_or_eq_of_mem_set hmem).symm
  live := by
    show (obj.fields.set i none).countP Option.isSome ≤ obj.fields.countP Option.isSome
    have hcount := countP_isSome_set_none hfield
    omega

/-- The start of the destructor of a field: what the field holds is owed to the object. -/
theorem field (h : Dying rank extra objects object (n + 1) obj) {ptr : SharedPtr}
    (hfield : obj.fields[n]? = some (some ptr)) :
    Dying rank (fun o => extra o + if ptr = some o then 1 else 0)
      (objects.set object { obj with fields := obj.fields.set n none }) object n
      { obj with fields := obj.fields.set n none } := by
  have hcount := count_set_destroyed hfield
  have hranked := (Shrinks.set h.get (h.shrunk hfield)).ranked h.ranked
  refine ⟨?_, hranked, ?_, ?_, ?_, h.refcount, ?_, ?_, ?_⟩
  · refine h.ledger.set h.get ?_ (h.ledger.bounded object obj h.get) ?_ ?_
    · intro p hlt
      have hcountP := hcount p
      dsimp only at hlt
      omega
    · have hcountO := hcount object
      dsimp only
      split at hcountO
      case isTrue heq => rw [if_pos heq]; omega
      case isFalse hne => rw [if_neg hne]; omega
    · intro p _
      have hcountP := hcount p
      dsimp only
      split at hcountP
      case isTrue heq => rw [if_pos heq]; omega
      case isFalse hne => rw [if_neg hne]; omega
  · intro o other hget hlt
    rcases of_getElem?_set hget with ⟨rfl, -⟩ | ⟨-, hget⟩
    · exact absurd hlt (Nat.lt_irrefl _)
    · exact h.settled o other hget hlt
  · intro o hlt
    have hcredit := h.credit o hlt
    split
    case isTrue => omega
    case isFalse => omega
  · exact List.getElem?_set_self (List.getElem?_eq_some_iff.mp h.get).1
  · rw [List.length_set]
    exact Nat.le_of_succ_le h.left
  · intro i handle hget hlt
    rcases of_getElem?_set hget with ⟨rfl, -⟩ | ⟨-, hget⟩
    · exact absurd hlt (Nat.lt_irrefl _)
    · exact h.live i handle hget (Nat.lt_succ_of_lt hlt)
  · intro i handle hget hle
    rcases of_getElem?_set hget with ⟨-, rfl⟩ | ⟨hne, hget⟩
    · rfl
    · exact h.destroyed i handle hget (by omega)

/-- What a field in destruction holds is to be released. -/
theorem releasable {target : Nat} (h : Dying rank extra objects object n obj)
    (hrank : rank target < rank object) (hextra : 0 < extra target)
    (hlt : target < objects.length) : Releasable rank extra objects target where
  ledger := h.ledger
  ranked := h.ranked
  settled o other hget hle := h.settled o other hget (Nat.lt_of_le_of_lt hle hrank)
  credit o hlt := h.credit o (Nat.lt_trans hlt hrank)
  counted := by
    have hget : objects[target]? = some objects[target] := List.getElem?_eq_getElem hlt
    have hcount := h.ledger.count target _ hget
    exact ⟨_, hget, by omega⟩

/-- The release of what a field held leaves the object as it is. -/
theorem released {target : Nat} {objects' : List Object}
    (h : Dying rank (fun o => extra o + if some target = some o then 1 else 0) objects object n obj)
    (hrank : rank target < rank object) (hcredit : ∀ o, rank o < rank object → 0 ≤ extra o)
    (hreleased : Released rank (fun o => extra o + if some target = some o then 1 else 0) objects
      target objects') : Dying rank extra objects' object n obj := by
  have hextra : (fun o => (extra o + if some target = some o then (1 : Int) else 0) -
      if o = target then 1 else 0) = extra := by
    funext o
    by_cases ho : o = target
    case pos => simp [ho]
    case neg => simp [ho, Ne.symm ho]
  have hledger := hreleased.ledger
  rw [hextra] at hledger
  refine ⟨hledger, hreleased.shrinks.ranked h.ranked, ?_, hcredit, ?_, h.refcount, h.left, h.live,
    h.destroyed⟩
  · intro o other hget hlt
    by_cases hle : rank o ≤ rank target
    case pos => exact hreleased.settled o other hget hle
    case neg =>
      rw [hreleased.above o (Nat.not_le.mp hle)] at hget
      exact h.settled o other hget hlt
  · rw [hreleased.above object hrank]
    exact h.get

end Dying

/-- A field more that was destroyed before. -/
theorem Destroyed.of_step {rank : Nat → Nat} {extra : Nat → Int}
    {objects objects₁ objects' : List Object} {object : Nat} {obj : Object}
    {fields : List (Option SharedPtr)}
    (h : Destroyed rank extra objects₁ object { obj with fields } objects')
    (hshrinks : Shrinks objects objects₁)
    (habove : ∀ o : Nat, rank object ≤ rank o → o ≠ object → objects₁[o]? = objects[o]?) :
    Destroyed rank extra objects object obj objects' where
  ledger := h.ledger
  shrinks := hshrinks.trans h.shrinks
  settled := h.settled
  above o hle hne := (h.above o hle hne).trans (habove o hle hne)
  get := h.get

/-- The destructors of the fields, where releases with this much fuel succeed. -/
theorem destroyFields_spec {rank : Nat → Nat} {fuel object : Nat}
    (hrelease : ∀ (objects : List Object) (extra : Nat → Int) (target : Nat),
      Releasable rank extra objects target → alive objects ≤ fuel →
      ∃ objects', release fuel objects target = some objects' ∧
        Released rank extra objects target objects')
    {n : Nat} {objects : List Object} {extra : Nat → Int} {obj : Object}
    (h : Dying rank extra objects object n obj) (hfuel : alive objects ≤ fuel) :
    ∃ objects', destroyFields (release fuel) object n objects = some objects' ∧
      Destroyed rank extra objects object obj objects' := by
  induction n generalizing objects obj with
  | zero =>
      refine ⟨objects, rfl, h.ledger, Shrinks.refl _, h.settled, fun _ _ _ => rfl, obj.fields,
        h.get, ?_⟩
      intro handle hmem
      obtain ⟨i, hi⟩ := List.getElem?_of_mem hmem
      exact h.destroyed i handle hi (Nat.zero_le i)
  | succ n ih =>
      obtain ⟨ptr, hfield⟩ := h.exists_field
      have hjoin : (obj.fields[n]?).join = some ptr := by rw [hfield]; rfl
      have hdying := h.field hfield
      have hshrinks := Shrinks.set h.get (h.shrunk hfield)
      have hothers : ∀ o : Nat, o ≠ object →
          (objects.set object { obj with fields := obj.fields.set n none })[o]? = objects[o]? :=
        fun o hne => List.getElem?_set_ne hne.symm
      have hfuel' := Nat.le_trans hshrinks.alive_le hfuel
      cases ptr with
      | none =>
          simp only [reduceCtorEq, if_false, Int.add_zero] at hdying
          obtain ⟨objects', hdestroy, hdestroyed⟩ := ih hdying hfuel'
          refine ⟨objects', ?_, hdestroyed.of_step hshrinks fun o _ => hothers o⟩
          simp only [destroyFields, h.get, hjoin, Option.bind_eq_bind, Option.bind_some, hdestroy]
      | some target =>
          have hrank := h.ranked object target ⟨obj, h.get, List.mem_of_getElem? hfield⟩
          have hpos : 0 < held objects target := by
            have hheld := held_set_add h.get { obj with fields := obj.fields.set n none } target
            have hcount := count_set_destroyed hfield target
            rw [if_pos rfl] at hcount
            dsimp only at hheld
            omega
          have hlt := h.ledger.inRange target hpos
          have hcredit := h.credit target hrank
          have hextra : 0 < extra target + if some target = some target then (1 : Int) else 0 := by
            rw [if_pos rfl]
            omega
          obtain ⟨objects₂, hreleaseTarget, hreleased⟩ := hrelease _ _ target
            (hdying.releasable hrank hextra (by rwa [List.length_set])) hfuel'
          obtain ⟨objects', hdestroy, hdestroyed⟩ := ih (hdying.released hrank h.credit hreleased)
            (Nat.le_trans hreleased.shrinks.alive_le hfuel')
          refine ⟨objects', ?_, hdestroyed.of_step (hshrinks.trans hreleased.shrinks) ?_⟩
          · simp only [destroyFields, h.get, hjoin, Option.bind_eq_bind, Option.bind_some,
              hreleaseTarget, hdestroy]
          · intro o hle hne
            rw [hreleased.above o (Nat.lt_of_lt_of_le hrank hle), hothers o hne]

/-- An object whose counter falls. -/
def Object.lowered (obj : Object) : Object := { obj with refcount := obj.refcount - 1 }

/-- A release of an object that was not deleted. -/
theorem release_succ {objects : List Object} {object : Nat} {obj : Object} (fuel : Nat)
    (hget : objects[object]? = some obj) (hdeletions : obj.deletions = 0)
    (hne : obj.refcount ≠ 0) (hbounded : obj.refcount < 2 ^ 64) :
    release (fuel + 1) objects object =
      if obj.refcount - 1 = 0 then
        (destroyFields (release fuel) object obj.fields.length
          (objects.set object obj.lowered)).bind fun objects =>
            (objects[object]?).bind fun obj =>
              some (objects.set object { obj with deletions := obj.deletions + 1 })
      else some (objects.set object obj.lowered) := by
  have hsub : (obj.refcount + 2 ^ 64 - 1) % 2 ^ 64 = obj.refcount - 1 := by omega
  rw [release, hget, Option.bind_eq_bind, Option.bind_some, if_neg (not_not.mpr hdeletions), hsub]
  rfl

/-- The ledger when the counter has fallen. -/
theorem Releasable.lowered {rank : Nat → Nat} {extra : Nat → Int} {objects : List Object}
    {object : Nat} {obj : Object} (h : Releasable rank extra objects object)
    (hget : objects[object]? = some obj) (hne : obj.refcount ≠ 0) :
    Ledger (objects.set object obj.lowered) fun o => extra o - if o = object then 1 else 0 := by
  have hbounded := h.ledger.bounded object obj hget
  refine h.ledger.set hget (fun _ hlt => absurd hlt (Nat.lt_irrefl _))
    (Nat.lt_of_le_of_lt (Nat.sub_le _ _) hbounded) ?_ ?_
  · rw [if_pos rfl, Object.lowered]
    dsimp only
    omega
  · intro p hp
    rw [if_neg hp, Object.lowered]
    dsimp only
    omega

theorem Object.shrunk_lowered (obj : Object) : Shrunk obj obj.lowered :=
  .of_fields (Nat.sub_le _ _) rfl

/-- The object dies when the last that held it is released. -/
theorem Releasable.dying {rank : Nat → Nat} {extra : Nat → Int} {objects : List Object}
    {object : Nat} {obj : Object} (h : Releasable rank extra objects object)
    (hget : objects[object]? = some obj) (hne : obj.refcount ≠ 0) (hzero : obj.refcount - 1 = 0)
    (hlive : ∀ handle ∈ obj.fields, handle.isSome) :
    Dying rank (fun o => extra o - if o = object then 1 else 0) (objects.set object obj.lowered)
      object obj.fields.length obj.lowered where
  ledger := h.lowered hget hne
  ranked := (Shrinks.set hget obj.shrunk_lowered).ranked h.ranked
  settled o other hother hlt := by
    rcases of_getElem?_set hother with ⟨rfl, -⟩ | ⟨-, hother⟩
    · exact absurd hlt (Nat.lt_irrefl _)
    · exact h.settled o other hother (Nat.le_of_lt hlt)
  credit o hlt := by
    have hcredit := h.credit o hlt
    have hne : o ≠ object := fun heq => Nat.lt_irrefl _ (heq ▸ hlt)
    rwa [if_neg hne, Int.sub_zero]
  get := List.getElem?_set_self (List.getElem?_eq_some_iff.mp hget).1
  refcount := hzero
  left := Nat.le_refl _
  live _ handle hfield _ := hlive handle (List.mem_of_getElem? hfield)
  destroyed _ _ hfield hle :=
    absurd (List.getElem?_eq_some_iff.mp hfield).1 (Nat.not_lt.mpr hle)

/-- A release succeeds with as much fuel as there are objects that are held. -/
theorem release_spec {rank : Nat → Nat} {fuel object : Nat} {objects : List Object}
    {extra : Nat → Int} (h : Releasable rank extra objects object) (hfuel : alive objects ≤ fuel) :
    ∃ objects', release fuel objects object = some objects' ∧
      Released rank extra objects object objects' := by
  induction fuel generalizing objects extra object with
  | zero =>
      obtain ⟨obj, hget, hne⟩ := h.counted
      have hpos : 0 < alive objects := countP_pos_of_getElem? hget (bne_iff_ne.mpr hne)
      omega
  | succ fuel ih =>
      obtain ⟨obj, hget, hne⟩ := h.counted
      have hsettled := h.settled object obj hget (Nat.le_refl _)
      rw [Object.Settled, if_neg hne] at hsettled
      have hshrinks := Shrinks.set hget obj.shrunk_lowered
      have hothers : ∀ o : Nat, o ≠ object →
          (objects.set object obj.lowered)[o]? = objects[o]? :=
        fun o hne => List.getElem?_set_ne hne.symm
      rw [release_succ fuel hget hsettled.1 hne (h.ledger.bounded object obj hget)]
      by_cases hzero : obj.refcount - 1 = 0
      case neg =>
        -- other handles are left
        rw [if_neg hzero]
        refine ⟨_, rfl, h.lowered hget hne, hshrinks, ?_, ?_⟩
        · intro o other hother hle
          rcases of_getElem?_set hother with ⟨-, rfl⟩ | ⟨-, hother⟩
          · rw [Object.Settled, Object.lowered, if_neg hzero]
            exact hsettled
          · exact h.settled o other hother hle
        · intro o hlt
          exact hothers o fun heq => Nat.lt_irrefl _ (heq ▸ hlt)
      case pos =>
        -- one object less is held while the fields go
        have hfuel' : alive (objects.set object obj.lowered) ≤ fuel := by
          have halive := alive_set_add hget obj.lowered
          rw [if_pos (bne_iff_ne.mpr hne), if_neg (by simpa [Object.lowered] using hzero)] at halive
          omega
        obtain ⟨objects₁, hdestroy, hdestroyed⟩ :=
          destroyFields_spec (fun _ _ _ => ih) (h.dying hget hne hzero hsettled.2) hfuel'
        obtain ⟨fields, hgetDead, hnone⟩ := hdestroyed.get
        rw [if_pos hzero, hdestroy, Option.bind_some, hgetDead, Option.bind_some]
        have hshrunk : Shrunk { obj.lowered with fields }
            { obj.lowered with fields, deletions := obj.lowered.deletions + 1 } :=
          .of_fields (Nat.le_refl _) rfl
        have hbounded := hdestroyed.ledger.bounded object _ hgetDead
        have hall := (hshrinks.trans hdestroyed.shrinks).trans (Shrinks.set hgetDead hshrunk)
        refine ⟨_, rfl, ?_, hall, ?_, ?_⟩
        · refine hdestroyed.ledger.set hgetDead (fun _ hlt => absurd hlt (Nat.lt_irrefl _))
            hbounded ?_ ?_
          · dsimp only
            omega
          · intro p _
            dsimp only
            omega
        · intro o other hother hle
          rcases of_getElem?_set hother with ⟨-, rfl⟩ | ⟨hne, hother⟩
          · rw [Object.Settled, Object.lowered]
            dsimp only
            rw [if_pos hzero, hsettled.1]
            exact ⟨rfl, hnone⟩
          · by_cases hlt : rank o < rank object
            case pos => exact hdestroyed.settled o other hother hlt
            case neg =>
              rw [hdestroyed.above o (Nat.not_lt.mp hlt) hne, hothers o hne] at hother
              exact h.settled o other hother hle
        · intro o hlt
          have hne : o ≠ object := fun heq => Nat.lt_irrefl _ (heq ▸ hlt)
          rw [List.getElem?_set_ne hne.symm, hdestroyed.above o (Nat.le_of_lt hlt) hne,
            hothers o hne]

end Cpp
end InfinityLabs
