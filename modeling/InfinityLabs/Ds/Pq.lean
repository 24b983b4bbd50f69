import InfinityLabs.Lib.Runs
import InfinityLabs.Ds.HeapRuns

/-!
# The priority queue

`ds/src/pq.c`, a heap under other names.  `pq.h` defines the match of `PQErase` by a result
other than 0.  `PQErase` passes the match function on to `HeapRemove`, for which a match is
a result of 0.
-/

namespace InfinityLabs
namespace Ds

open Lib Lib.BinaryHeap

/-- A `pq_t`. -/
structure Pq (α : Type) where
  heap : Heap α

variable {α β : Type} {C : Comparator α}

/-! ## The functions -/

/-- `PQCreate`, where its allocations succeed. -/
def pqCreate (comp : α → α → Int) : Pq α := ⟨heapCreate comp⟩

/-- `PQEnqueue`, where `HeapPush` returns 0. -/
def pqEnqueue (pq : Pq α) (data : α) : Pq α := ⟨heapPush pq.heap data⟩

/-- `PQIsEmpty`. -/
def pqIsEmpty (pq : Pq α) : Bool := heapIsEmpty pq.heap

/-- `PQSize`. -/
def pqSize (pq : Pq α) : Nat := heapSize pq.heap

/-- `PQPeek`. -/
def pqPeek (pq : Pq α) : Option α := heapPeek pq.heap

/-- `PQDequeue`.  An empty queue fails the assertion. -/
def pqDequeue (pq : Pq α) : Option (α × Pq α) := do
  let data ← heapPeek pq.heap
  let heap ← heapPop pq.heap
  some (data, ⟨heap⟩)

/-- `PQClear`, which takes as many rounds as the queue has elements. -/
def pqClear (pq : Pq α) : Option (Pq α) := do
  let (_, heap) ← drain (pqSize pq) pq.heap
  some ⟨heap⟩

/-- `PQErase`. -/
def pqErase (pq : Pq α) (isMatchFunc : α → β → Int) (param : β) : Pq α × Option α :=
  match heapRemove pq.heap param isMatchFunc with
  | (heap, data) => (⟨heap⟩, data)

/-! ## Runs -/

/-- The calls that change a queue. -/
inductive PqAction (α β : Type) where
  | enqueue (data : α)
  | dequeue
  | clear
  | erase (isMatchFunc : α → β → Int) (param : β)

/-- A call. -/
def Pq.step (pq : Pq α) : PqAction α β → Option (Pq α)
  | .enqueue data => some (pqEnqueue pq data)
  | .dequeue => (pqDequeue pq).map Prod.snd
  | .clear => pqClear pq
  | .erase isMatchFunc param => some (pqErase pq isMatchFunc param).1

/-- The runs that start with `PQCreate`. -/
def pqMachine (C : Comparator α) (β : Type) : Machine (Pq α) (PqAction α β) where
  start pq := pq = pqCreate C.cmp
  step pq a := pq.step a

/-- The queue is in its priority order. -/
def Pq.Wf (C : Comparator α) (pq : Pq α) : Prop :=
  pq.heap.Wf C

/-- What `PQErase` does: it takes out the first element with the result 0, or nothing. -/
theorem pqErase_cases (pq : Pq α) (isMatchFunc : α → β → Int) (param : β) :
    ((∀ x ∈ pq.heap.vector, isMatchFunc x param ≠ 0) ∧
        pqErase pq isMatchFunc param = (pq, none)) ∨
      ∃ (i : Nat) (hi : i < pq.heap.vector.size), isMatchFunc pq.heap.vector[i] param = 0 ∧
        pqErase pq isMatchFunc param = (⟨removeAt pq.heap i hi⟩, some pq.heap.vector[i]) := by
  rw [pqErase]
  rcases heapRemove_cases pq.heap param isMatchFunc with
    ⟨hall, hnone⟩ | ⟨i, hi, hzero, -, hsome⟩
  · rw [hnone]
    exact Or.inl ⟨hall, rfl⟩
  · rw [hsome]
    exact Or.inr ⟨i, hi, hzero, rfl⟩

/-- `PQErase` keeps the order. -/
theorem Pq.Wf.erase {pq : Pq α} (h : pq.Wf C) (isMatchFunc : α → β → Int) (param : β) :
    (pqErase pq isMatchFunc param).1.Wf C := by
  rcases pqErase_cases pq isMatchFunc param with ⟨-, hnone⟩ | ⟨i, hi, -, hsome⟩
  · rw [hnone]
    exact h
  · rw [hsome]
    exact Heap.Wf.removeAt h hi

/-- A call keeps the order. -/
theorem Pq.step_wf {pq pq' : Pq α} {a : PqAction α β} (h : pq.Wf C)
    (hstep : pq.step a = some pq') : pq'.Wf C := by
  cases a with
  | enqueue data =>
      obtain rfl := Option.some.inj hstep
      exact Heap.Wf.push h data
  | dequeue =>
      rw [Pq.step, pqDequeue] at hstep
      cases hpeek : heapPeek pq.heap with
      | none =>
          rw [hpeek] at hstep
          cases hstep
      | some data =>
          obtain ⟨heap', hpop, hwf, -⟩ := Heap.Wf.pop h hpeek
          rw [hpeek, hpop] at hstep
          obtain rfl := Option.some.inj hstep
          exact hwf
  | clear =>
      rw [Pq.step, pqClear] at hstep
      obtain ⟨l, empty, hdrain, -, hwf, -⟩ := Heap.Wf.drain h (Nat.le_refl pq.heap.vector.size)
      rw [pqSize, heapSize, hdrain] at hstep
      obtain rfl := Option.some.inj hstep
      exact hwf
  | erase isMatchFunc param =>
      obtain rfl := Option.some.inj hstep
      exact h.erase isMatchFunc param

/-- **Every reachable queue is in its priority order.** -/
theorem pqMachine_wf {pq : Pq α} (hreached : (pqMachine C β).Reached pq) : pq.Wf C := by
  refine hreached.invariant (I := Pq.Wf C) ?_ fun pq a pq' h _ hstep => Pq.step_wf h hstep
  rintro pq rfl
  exact wf_heapCreate

/-! ## The match function -/

/-- `is_match_func` reports a match in the sense of `pq.h`. -/
def Matches (isMatchFunc : α → β → Int) (param : β) (data : α) : Prop :=
  isMatchFunc data param ≠ 0

/-- What `pq.h` promises of `PQErase`: it takes out and returns an element that matches, and
where nothing matches it changes nothing and returns nothing. -/
structure ErasesMatch (C : Comparator α) (pq : Pq α) (isMatchFunc : α → β → Int) (param : β) :
    Prop where
  hit : (∃ x ∈ pq.heap.vector, Matches isMatchFunc param x) →
    ∃ x pq', Matches isMatchFunc param x ∧ pqErase pq isMatchFunc param = (pq', some x) ∧
      pq.heap.vector.toList.Perm (x :: pq'.heap.vector.toList) ∧ pq'.Wf C
  miss : (∀ x ∈ pq.heap.vector, ¬ Matches isMatchFunc param x) →
    pqErase pq isMatchFunc param = (pq, none)

/-- **When `PQErase` follows `pq.h`**: exactly on an empty queue, for every match function.
The queue keeps its order in any case. -/
theorem pqErase_contract {pq : Pq α} (hreached : (pqMachine C β).Reached pq)
    (isMatchFunc : α → β → Int) (param : β) :
    (ErasesMatch C pq isMatchFunc param ↔ pqIsEmpty pq = true) ∧
      (pqErase pq isMatchFunc param).1.Wf C := by
  refine ⟨⟨fun h => ?_, fun hempty => ?_⟩, (pqMachine_wf hreached).erase isMatchFunc param⟩
  · by_contra hne
    have hpos : 0 < pq.heap.vector.size :=
      Nat.pos_of_ne_zero fun hsize => hne (heapIsEmpty_iff.mpr hsize)
    rcases pqErase_cases pq isMatchFunc param with ⟨hall, hresult⟩ | ⟨i, hi, hzero, hresult⟩
    · -- every element matches, and none goes
      have hmem := Array.getElem_mem hpos
      obtain ⟨x, pq', -, hhit, -⟩ := h.hit ⟨_, hmem, hall _ hmem⟩
      have hdata := congrArg Prod.snd (hhit.symm.trans hresult)
      cases hdata
    · by_cases hmatch : ∃ x ∈ pq.heap.vector, Matches isMatchFunc param x
      · -- what goes does not match
        obtain ⟨x, pq', hx, hhit, -⟩ := h.hit hmatch
        have hdata := congrArg Prod.snd (hhit.symm.trans hresult)
        obtain rfl := Option.some.inj hdata
        exact hx hzero
      · -- nothing matches, and an element goes
        have hmiss := h.miss fun x hx hmatches => hmatch ⟨x, hx, hmatches⟩
        have hdata := congrArg Prod.snd (hmiss.symm.trans hresult)
        cases hdata
  · have hnone : ∀ x, x ∉ pq.heap.vector := by
      intro x
      rw [Array.eq_empty_of_size_eq_zero (heapIsEmpty_iff.mp hempty)]
      exact Array.not_mem_empty x
    refine ⟨fun ⟨x, hx, _⟩ => absurd hx (hnone x), fun _ => ?_⟩
    rcases pqErase_cases pq isMatchFunc param with ⟨-, hresult⟩ | ⟨i, hi, -⟩
    · exact hresult
    · exact absurd (Array.getElem_mem hi) (hnone _)

/-- The match function of the tests: 1 for equal numbers. -/
def equalNumbers (data param : Nat) : Int := if data = param then 1 else 0

/-- The erasure of 4 takes out the 9 before it. -/
theorem pqErase_takesOther :
    ¬ ∀ (pq : Pq Nat), (pqMachine natural Nat).Reached pq →
      ∀ (isMatchFunc : Nat → Nat → Int) (param : Nat),
        ErasesMatch natural pq isMatchFunc param := by
  intro hclaim
  have hstart : (pqMachine natural Nat).Reached (pqCreate natural.cmp) := .start rfl
  have hrun : ((pqMachine natural Nat).run (pqCreate natural.cmp)
      [.enqueue 4, .enqueue 9]).map
        (fun pq => (pq.heap.vector, (pqErase pq equalNumbers 4).2)) = some (#[9, 4], some 9) := by
    decide +kernel
  obtain ⟨pq, hpq, hshown⟩ := hstart.run_map hrun
  have hvector : pq.heap.vector = #[9, 4] := congrArg Prod.fst hshown
  have hresult : (pqErase pq equalNumbers 4).2 = some 9 := congrArg Prod.snd hshown
  obtain ⟨x, pq', hx, hhit, -⟩ := (hclaim pq hpq equalNumbers 4).hit
    ⟨4, by rw [hvector]; simp, by unfold Matches; decide⟩
  rw [hhit] at hresult
  obtain rfl : x = 9 := Option.some.inj hresult
  exact hx rfl

/-- A new queue erases nothing. -/
theorem pqErase_contract_new :
    (ErasesMatch natural (pqCreate natural.cmp) equalNumbers 4 ↔
        pqIsEmpty (pqCreate natural.cmp) = true) ∧
      (pqErase (pqCreate natural.cmp) equalNumbers 4).1.Wf natural :=
  pqErase_contract (.start rfl) equalNumbers 4

end Ds
end InfinityLabs
