import InfinityLabs.Ds.HashTable

/-!
# Visits of the hash table

`HashTableForEach` runs `SLLForEach` over one bucket after the other.  It stops where the action
does, but tells its caller 1 for whatever the action returned.
-/

namespace InfinityLabs
namespace Ds

open Lib

variable {σ : Type} {action : Nat → σ → Int × σ}

/-! ## The functions -/

/-- `HashForEachBucket`, with the action and its parameter. -/
def hashForEachBucket (m : SllMemory) (action : Nat → σ → Int × σ) (fuel bucket : Nat) (param : σ) :
    Option (Int × σ) := do
  let begin_ ← m.sllBegin bucket
  let end_ ← m.sllEnd bucket
  m.sllForEach action fuel begin_ end_ param

namespace HashTable

/-- The loop of `HashTableForEach`. -/
def forEachLoop (m : SllMemory) (action : Nat → σ → Int × σ) (fuel : Nat) :
    List Nat → σ → Option (Int × σ)
  | [], param => some (0, param)
  | bucket :: rest, param => do
      let (status, param) ← hashForEachBucket m action fuel bucket param
      -- the status itself is not passed on
      if status ≠ 0 then some (1, param) else forEachLoop m action fuel rest param

/-- `HashTableForEach`. -/
def hashTableForEach (t : HashTable) (m : SllMemory) (action : Nat → σ → Int × σ) (fuel : Nat)
    (param : σ) : Option (Int × σ) :=
  forEachLoop m action fuel t.buckets param

end HashTable

/-! ## Stopping at a status -/

/-- The action returns 0 on every element of the list, and makes one parameter of another. -/
inductive Quiet (action : Nat → σ → Int × σ) : σ → List Nat → σ → Prop
  | nil (param : σ) : Quiet action param [] param
  | cons {param next last : σ} {data : Nat} {rest : List Nat}
      (hdata : action data param = (0, next)) (hrest : Quiet action next rest last) :
      Quiet action param (data :: rest) last

/-- The first element on which the action does not return 0, and what it returns there. -/
def StopsWith (action : Nat → σ → Int × σ) (l : List Nat) (param : σ) (result : Int × σ) : Prop :=
  ∃ visited data rest mid, l = visited ++ data :: rest ∧ Quiet action param visited mid ∧
    action data mid = result ∧ result.1 ≠ 0

/-- The action is applied to the elements in their order until it first returns a status that is
not 0, which is the result; it is 0 where there is none. -/
def Visits (action : Nat → σ → Int × σ) (l : List Nat) (param : σ) (result : Int × σ) : Prop :=
  result.1 = 0 ∧ Quiet action param l result.2 ∨ StopsWith action l param result

variable {l l' : List Nat} {param : σ} {result : Int × σ}

/-- An element on which the action returns 0 is passed. -/
theorem quiet_cons {data : Nat} {next last : σ} (hdata : action data param = (0, next)) :
    Quiet action param (data :: l) last ↔ Quiet action next l last := by
  constructor
  · rintro (_ | ⟨hfirst, hrest⟩)
    obtain ⟨-, rfl⟩ := Prod.mk.inj (hdata.symm.trans hfirst)
    exact hrest
  · exact fun hrest => .cons hdata hrest

theorem stopsWith_cons {data : Nat} {next : σ} (hdata : action data param = (0, next)) :
    StopsWith action (data :: l) param result ↔ StopsWith action l next result := by
  constructor
  · rintro ⟨visited, other, rest, mid, hsplit, hquiet, hresult, hne⟩
    cases visited with
    | nil =>
        obtain ⟨rfl, -⟩ := List.cons.inj hsplit
        cases hquiet
        exact absurd (congrArg Prod.fst (hresult.symm.trans hdata)) hne
    | cons first visited =>
        obtain ⟨rfl, rfl⟩ := List.cons.inj hsplit
        exact ⟨visited, other, rest, mid, rfl, (quiet_cons hdata).mp hquiet, hresult, hne⟩
  · rintro ⟨visited, other, rest, mid, rfl, hquiet, hresult, hne⟩
    exact ⟨data :: visited, other, rest, mid, rfl, .cons hdata hquiet, hresult, hne⟩

/-- An element on which the action does not return 0 is the last one that is visited. -/
theorem visits_cons_of_ne {data : Nat} (hne : (action data param).1 ≠ 0) :
    Visits action (data :: l) param result ↔ action data param = result := by
  constructor
  · rintro (⟨-, hquiet⟩ | ⟨visited, other, rest, mid, hsplit, hquiet, hresult, -⟩)
    · cases hquiet with
      | cons hfirst _ => exact absurd (congrArg Prod.fst hfirst) hne
    · cases visited with
      | nil =>
          obtain ⟨rfl, -⟩ := List.cons.inj hsplit
          cases hquiet
          exact hresult
      | cons first visited =>
          obtain ⟨rfl, -⟩ := List.cons.inj hsplit
          cases hquiet with
          | cons hfirst _ => exact absurd (congrArg Prod.fst hfirst) hne
  · rintro rfl
    exact Or.inr ⟨[], data, l, param, rfl, .nil param, rfl, hne⟩

/-- The loop of `SLLForEach` visits so, and nothing else does. -/
theorem visits_iff :
    Visits action l param result ↔ SllMemory.forEachElement action l param = result := by
  induction l generalizing param with
  | nil =>
      constructor
      · rintro (⟨hzero, hquiet⟩ | ⟨visited, data, rest, mid, hsplit, -⟩)
        · obtain ⟨status, last⟩ := result
          cases hquiet
          rw [show status = 0 from hzero]
          rfl
        · simp at hsplit
      · rintro rfl
        exact Or.inl ⟨rfl, .nil param⟩
  | cons data l ih =>
      by_cases hzero : (action data param).1 = 0
      case pos =>
        have hdata : action data param = (0, (action data param).2) := Prod.ext hzero rfl
        have hloop : SllMemory.forEachElement action (data :: l) param =
            SllMemory.forEachElement action l (action data param).2 := if_pos hzero
        rw [hloop, ← ih, Visits, Visits, quiet_cons hdata, stopsWith_cons hdata]
      case neg =>
        have hloop : SllMemory.forEachElement action (data :: l) param = action data param :=
          if_neg hzero
        rw [hloop, visits_cons_of_ne hzero]

/-- The loop over two lists is the loop over the one, and over the other unless it has stopped. -/
theorem forEachElement_append (action : Nat → σ → Int × σ) (l l' : List Nat) (param : σ) :
    SllMemory.forEachElement action (l ++ l') param =
      if (SllMemory.forEachElement action l param).1 = 0 then
        SllMemory.forEachElement action l' (SllMemory.forEachElement action l param).2
      else SllMemory.forEachElement action l param := by
  induction l generalizing param with
  | nil => exact (if_pos rfl).symm
  | cons data l ih =>
      simp only [List.cons_append, SllMemory.forEachElement]
      split
      · exact ih _
      · rfl

/-! ## The buckets -/

/-- What `HashTableForEach` makes of the result of a visit. -/
def reported (result : Int × σ) : Int × σ := (if result.1 ≠ 0 then 1 else 0, result.2)

variable {m : SllMemory}

/-- `HashForEachBucket` visits the content of its bucket. -/
theorem hashForEachBucket_eq {list : Nat} {header : SllHeader} {nodes content : List Nat}
    (h : m.IsList list header nodes content) (action : Nat → σ → Int × σ) {fuel : Nat}
    (hfuel : content.length < fuel) (param : σ) :
    hashForEachBucket m action fuel list param =
      some (SllMemory.forEachElement action content param) := by
  obtain ⟨elements, rfl, rfl⟩ := h.exists_concat
  rw [List.length_map] at hfuel
  simp only [hashForEachBucket, h.sllBegin_eq, h.sllEnd_eq, Option.bind_eq_bind, Option.bind_some]
  exact SllMemory.sllForEach_eq action h.linked
    (fun address hmem => (h.allocated address (List.mem_append_left _ hmem)).2) hfuel param

/-- The loop of `HashTableForEach` visits the contents of the buckets. -/
theorem forEachLoop_eq {lists : List Nat} {contents : List (List Nat)}
    (h : m.HoldLists lists contents) (action : Nat → σ → Int × σ) {fuel : Nat}
    (hfuel : contents.flatten.length < fuel) (param : σ) :
    HashTable.forEachLoop m action fuel lists param =
      some (reported (SllMemory.forEachElement action contents.flatten param)) := by
  induction lists generalizing contents param with
  | nil =>
      obtain rfl : contents = [] := List.eq_nil_of_length_eq_zero h.1.symm
      rfl
  | cons list lists ih =>
      obtain ⟨content, rest, rfl, ⟨header, nodes, hnodes⟩, hrest⟩ := h.of_cons
      rw [List.flatten_cons, List.length_append] at hfuel
      have hcontent : content.length < fuel := by omega
      have hbucket := hashForEachBucket_eq hnodes action hcontent param
      rw [List.flatten_cons, forEachElement_append, HashTable.forEachLoop, hbucket]
      simp only [Option.bind_eq_bind, Option.bind_some]
      by_cases hzero : (SllMemory.forEachElement action content param).1 = 0
      case pos =>
        rw [if_pos hzero, if_neg (not_not_intro hzero), ih hrest (by omega)]
      case neg => rw [if_neg hzero, if_pos hzero, reported, if_pos hzero]

/-! ## The table -/

/-- `HashTableForEach` visits the contents, and returns the status of the visit. -/
def HashTable.ForEachReports (t : HashTable) (m : SllMemory) (contents : List (List Nat))
    (action : Nat → σ → Int × σ) (param : σ) : Prop :=
  ∃ result, Visits action contents.flatten param result ∧
    ∀ fuel, contents.flatten.length < fuel →
      t.hashTableForEach m action fuel param = some result

/-- The status is returned exactly where the first one that is not 0 is 1. -/
theorem HashTable.forEachReports_iff {t : HashTable} {contents : List (List Nat)}
    (h : m.HoldLists t.buckets contents) (action : Nat → σ → Int × σ) (param : σ) :
    t.ForEachReports m contents action param ↔
      ∀ result, StopsWith action contents.flatten param result → result.1 = 1 := by
  have hloop (fuel : Nat) (hfuel : contents.flatten.length < fuel) :=
    forEachLoop_eq h action hfuel param
  constructor
  · rintro ⟨result, hvisits, hcall⟩ other hstops
    have hother : SllMemory.forEachElement action contents.flatten param = other :=
      visits_iff.mp (Or.inr hstops)
    have hsame : SllMemory.forEachElement action contents.flatten param = result :=
      visits_iff.mp hvisits
    have hreported := (hcall _ (Nat.lt_succ_self _)).symm.trans (hloop _ (Nat.lt_succ_self _))
    obtain ⟨visited, data, rest, mid, -, -, -, hne⟩ := hstops
    rw [← hsame, hother, Option.some.injEq, reported, if_pos hne] at hreported
    exact congrArg Prod.fst hreported
  · intro hone
    have hvisits : Visits action contents.flatten param
        (SllMemory.forEachElement action contents.flatten param) := visits_iff.mpr rfl
    refine ⟨_, hvisits, fun fuel hfuel => (hloop fuel hfuel).trans (congrArg some ?_)⟩
    rcases hvisits with ⟨hzero, -⟩ | hstops
    · exact Prod.ext ((if_neg (not_not_intro hzero)).trans hzero.symm) rfl
    · have hstatus := hone _ hstops
      have hne : (SllMemory.forEachElement action contents.flatten param).1 ≠ 0 := by
        rw [hstatus]
        exact Int.one_ne_zero
      exact Prod.ext ((if_pos hne).trans hstatus.symm) rfl

/-- After every sequence of insertions and removals the buckets hold the entries, and
`HashTableForEach` visits them and returns the status of the visit exactly where the action first
returns 1, if it does not return 0 on all of them. -/
theorem hashTable_forEach {t : HashTable} {s : HashState} (h : (hashTableMachine t).Reached s) :
    ∃ contents, s.memory.HoldLists t.buckets contents ∧ s.entries.Perm contents.flatten ∧
      ∀ (σ : Type) (action : Nat → σ → Int × σ) (param : σ),
        t.ForEachReports s.memory contents action param ↔
          ∀ result, StopsWith action contents.flatten param result → result.1 = 1 := by
  obtain ⟨contents, hlists, hperm, -⟩ := (HashTable.holds_of_reached h).contents
  exact ⟨contents, hlists, hperm, fun σ action param =>
    HashTable.forEachReports_iff hlists action param⟩

/-- An action that returns 1 at the first multiple of 7. -/
theorem hashTable_forEach_twoBuckets :
    ∃ s, (hashTableMachine twoBuckets).run newTable
        [.insert 13 (some 80), .insert 25 (some 96), .insert 14 (some 112)] = some s ∧
      ∃ contents, s.memory.HoldLists twoBuckets.buckets contents ∧
        s.entries.Perm contents.flatten ∧
        ∀ (σ : Type) (action : Nat → σ → Int × σ) (param : σ),
          twoBuckets.ForEachReports s.memory contents action param ↔
            ∀ result, StopsWith action contents.flatten param result → result.1 = 1 := by
  have hrun : (hashTableMachine twoBuckets).run newTable
      [.insert 13 (some 80), .insert 25 (some 96), .insert 14 (some 112)] = some _ := rfl
  exact ⟨_, hrun, hashTable_forEach (Machine.Reached.run (.start newTable_start) hrun)⟩

/-- An action that returns 2 on the only element. -/
theorem hashTable_forEach_fails :
    ¬ ∀ s, (hashTableMachine twoBuckets).Reached s →
      ∃ contents, s.memory.HoldLists twoBuckets.buckets contents ∧
        s.entries.Perm contents.flatten ∧
        ∀ (σ : Type) (action : Nat → σ → Int × σ) (param : σ),
          twoBuckets.ForEachReports s.memory contents action param := by
  intro h
  have hrun : (hashTableMachine twoBuckets).run newTable [.insert 13 (some 80)] = some _ := rfl
  obtain ⟨contents, hlists, hperm, hall⟩ :=
    h _ (Machine.Reached.run (.start newTable_start) hrun)
  have hcontents : contents.flatten = [13] := List.perm_singleton.mp hperm.symm
  have hstops : StopsWith (fun _ _ => (2, ())) contents.flatten () (2, ()) :=
    ⟨[], 13, [], (), hcontents, .nil (), rfl, by decide⟩
  have hone := (HashTable.forEachReports_iff hlists _ ()).mp (hall Unit _ ()) _ hstops
  exact absurd hone (by decide)

end Ds
end InfinityLabs
