import InfinityLabs.Ds.FsqRuns

/-!
# Peeking into the blocking queue

`FSQPeek` looks one node behind the begin of the list, as if its dummy were the first node; it
is the last one.  So on an empty queue it compares `NULL`, which fails an assertion, on a queue
with one item it returns `NULL`, and on a longer one it returns the second item.
-/

namespace InfinityLabs
namespace Ds

open Lib

/-- `FSQPeek`, which writes nothing; `SLLIsEqual` asserts that neither iterator is `NULL`. -/
def Fsq.fsqPeek (fsq : Fsq) : Option Nat := do
  let begin_ ← fsq.memory.sllBegin fsq.list
  let firstRealNode ← fsq.memory.sllNext begin_
  let end_ ← fsq.memory.sllEnd fsq.list
  if firstRealNode = 0 ∨ end_ = 0 then none
  else if firstRealNode = end_ then some 0
  else fsq.memory.sllGetData firstRealNode

/-! ## The list in every run -/

/-- The list holds the items that were put and not yet taken. -/
def FsqState.IsQueue (s : FsqState) : Prop :=
  ∃ header nodes content, s.fsq.memory.IsList s.fsq.list header nodes content ∧
    s.taken ++ content = s.put

/-- On an empty list there is nothing to remove. -/
theorem Fsq.removeSection_nil {fsq : Fsq} {header : SllHeader} {nodes : List Nat}
    (h : fsq.memory.IsList fsq.list header nodes []) : fsq.removeSection = none := by
  obtain ⟨rfl, hends⟩ := h.nodes_of_nil
  have hnode := SllMemory.node?_eq (h.allocated _ List.mem_cons_self).2
  have hnext : fsq.memory.next header.tail = 0 := h.linked.2.2
  simp [removeSection, h.sllBegin_eq, hends, SllMemory.sllNext, hnode, hnext]

/-- Every step keeps the list, also where a semaphore or a comparison goes wrong. -/
theorem FsqState.IsQueue.step {s s' : FsqState} {a : FsqAction} (h : s.IsQueue)
    (hstep : s.step a = some s') : s'.IsQueue := by
  cases a with
  | callEnqueue data =>
      obtain rfl := Option.some.inj hstep
      exact h
  | waitEnqueue call =>
      simp only [FsqState.step] at hstep
      split at hstep
      · obtain ⟨enqueueSem, -, rfl⟩ := Option.map_eq_some_iff.mp hstep
        exact h
      · cases hstep
  | insert call node =>
      obtain ⟨header, nodes, content, hlist, horder⟩ := h
      simp only [FsqState.step] at hstep
      split at hstep
      · rename_i data hcall
        obtain ⟨hfree, hinsert⟩ := Option.ite_none_right_eq_some.mp hstep
        obtain ⟨memory, header', heq, hlist', -⟩ := hlist.insert_end hfree 0 data
        have hsection : s.fsq.insertSection node data = some (memory, header.tail) := by
          simp [Fsq.insertSection, hlist.sllEnd_eq, heq]
        rw [hsection, Option.map_some, Option.some.injEq] at hinsert
        subst hinsert
        exact ⟨header', _, _, hlist', by simp [← horder]⟩
      · cases hstep
  | compare call =>
      simp only [FsqState.step] at hstep
      split at hstep
      · obtain ⟨end_, -, rfl⟩ := Option.map_eq_some_iff.mp hstep
        exact h
      · cases hstep
  | postEnqueue call =>
      simp only [FsqState.step] at hstep
      split at hstep
      · obtain rfl := Option.some.inj hstep
        exact h
      · obtain rfl := Option.some.inj hstep
        exact h
      · cases hstep
  | callDequeue =>
      obtain rfl := Option.some.inj hstep
      exact h
  | waitDequeue call =>
      simp only [FsqState.step] at hstep
      split at hstep
      · obtain ⟨dequeueSem, -, rfl⟩ := Option.map_eq_some_iff.mp hstep
        exact h
      · cases hstep
  | remove call =>
      obtain ⟨header, nodes, content, hlist, horder⟩ := h
      simp only [FsqState.step] at hstep
      split at hstep
      · obtain ⟨⟨memory, data⟩, hremove, rfl⟩ := Option.map_eq_some_iff.mp hstep
        cases content with
        | nil => simp [Fsq.removeSection_nil hlist] at hremove
        | cons first content =>
            obtain ⟨memory', header', tmp, rest, rfl, hremove', hlist'⟩ :=
              Fsq.removeSection_cons hlist
            rw [hremove', Option.some.injEq, Prod.mk.injEq] at hremove
            obtain ⟨rfl, rfl⟩ := hremove
            exact ⟨header', _, content, hlist', by simp [← horder]⟩
      · cases hstep
  | postDequeue call =>
      simp only [FsqState.step] at hstep
      split at hstep
      · obtain rfl := Option.some.inj hstep
        exact h
      · cases hstep

/-- The list in every state of every run. -/
theorem fsqMachine_isQueue {capacity : Nat} {s : FsqState} (h : (fsqMachine capacity).Reached s) :
    s.IsQueue := by
  refine h.invariant (fun s hstart => ?_) fun s a s' hs _ hstep => hs.step hstep
  obtain ⟨header, nodes, hlist⟩ := fsqMachine_start_isList hstart
  obtain ⟨-, -, -, -, -, -, -, -, -, -, -, -, hput, htaken⟩ := hstart
  exact ⟨header, nodes, [], hlist, by simp [hput, htaken]⟩

/-! ## What `FSQPeek` returns -/

section

variable {fsq : Fsq} {header : SllHeader} {nodes content : List Nat} {data second : Nat}

/-- The link of a node of the list. -/
theorem SllMemory.IsList.sllNext_eq {m : SllMemory} {list address : Nat}
    (h : m.IsList list header nodes content) (hmem : address ∈ nodes) :
    m.sllNext address = some (m.next address) := by
  rw [SllMemory.sllNext, SllMemory.node?_eq (h.allocated address hmem).2, Option.map_some]

/-- The tail of a list is a node. -/
theorem SllMemory.IsList.tail_ne_zero {m : SllMemory} {list : Nat}
    (h : m.IsList list header nodes content) : header.tail ≠ 0 :=
  h.linked.ne_zero _ (List.mem_of_getLast? h.tail_eq)

/-- On an empty queue the assertion of `SLLIsEqual` fails. -/
theorem Fsq.fsqPeek_nil (h : fsq.memory.IsList fsq.list header nodes []) :
    fsq.fsqPeek = none := by
  obtain ⟨rfl, hends⟩ := h.nodes_of_nil
  have hnext : fsq.memory.next header.tail = 0 := h.linked.2.2
  simp [fsqPeek, h.sllBegin_eq, h.sllEnd_eq, hends, h.sllNext_eq List.mem_cons_self, hnext]

/-- The only item is not seen. -/
theorem Fsq.fsqPeek_singleton (h : fsq.memory.IsList fsq.list header nodes [data]) :
    fsq.fsqPeek = some 0 := by
  have hlength := h.length_eq
  have htail := h.tail_eq
  have hne := h.tail_ne_zero
  obtain ⟨tmp, rest, rfl, -, -⟩ := h.nodes_of_cons
  obtain rfl : rest = [] := by simpa using hlength
  have hnext : fsq.memory.next header.head = tmp := h.linked.2.2.1
  simp at htail
  simp [fsqPeek, h.sllBegin_eq, h.sllEnd_eq, h.sllNext_eq List.mem_cons_self, hnext, htail, hne]

/-- Of several items the second is returned. -/
theorem Fsq.fsqPeek_cons_cons
    (h : fsq.memory.IsList fsq.list header nodes (data :: second :: content)) :
    fsq.fsqPeek = some second := by
  have hlength := h.length_eq
  have htail := h.tail_eq
  have hne := h.tail_ne_zero
  obtain ⟨tmp, rest, rfl, -, -⟩ := h.nodes_of_cons
  have hmem : tmp ∈ header.head :: tmp :: rest := by simp
  have hnext : fsq.memory.next header.head = tmp := h.linked.2.2.1
  have htmp : tmp ≠ 0 := h.linked.ne_zero tmp hmem
  have hnodup := h.linked.nodup
  -- the second node is not the last one
  have hbefore : tmp ≠ header.tail := by
    rintro rfl
    cases rest with
    | nil => simp at hlength
    | cons x rest =>
        rw [List.getLast?_cons_cons, List.getLast?_cons_cons] at htail
        have hlast := List.mem_of_getLast? htail
        simp [hlast] at hnodup
  have hdata : fsq.memory.data tmp = second := by
    have heq := h.data_eq
    simp at heq
    exact heq.2.1
  have hget : fsq.memory.sllGetData tmp = some second := by
    rw [SllMemory.sllGetData, SllMemory.node?_eq (h.allocated tmp hmem).2, Option.map_some, hdata]
  simp [fsqPeek, h.sllBegin_eq, h.sllEnd_eq, h.sllNext_eq List.mem_cons_self, hnext, hne, htmp,
    hbefore, hget]

end

/-- What `FSQPeek` is for: it returns the item that a removal takes, and `NULL` exactly on an
empty queue. -/
def FsqState.PeekAgrees (s : FsqState) : Prop :=
  ∃ result, s.fsq.fsqPeek = some result ∧
    (∀ memory data, s.fsq.removeSection = some (memory, data) → result = data) ∧
    (result = 0 ↔ s.fsq.memory.sllIsEmpty s.fsq.list = some true)

/-- **When `FSQPeek` agrees**: in every state of every run, exactly if the first two items of the
queue are one pointer that is not `NULL`. -/
theorem fsqPeek_agrees_iff {capacity : Nat} {s : FsqState}
    (h : (fsqMachine capacity).Reached s) :
    s.PeekAgrees ↔ ∃ data rest, s.put = s.taken ++ data :: data :: rest ∧ data ≠ 0 := by
  obtain ⟨header, nodes, content, hlist, horder⟩ := fsqMachine_isQueue h
  have hempty := hlist.isEmpty
  simp only [FsqState.PeekAgrees, ← horder, List.append_cancel_left_eq, hempty]
  match content, hlist with
  | [], hlist => simp [Fsq.fsqPeek_nil hlist]
  | [data], hlist => simp [Fsq.fsqPeek_singleton hlist]
  | data :: second :: content, hlist =>
      obtain ⟨memory, -, -, -, -, hremove, -⟩ := Fsq.removeSection_cons hlist
      simp [Fsq.fsqPeek_cons_cons hlist, hremove]
      rintro rfl
      exact Iff.rfl

/-- No call is in progress. -/
def FsqState.Quiet (s : FsqState) : Prop :=
  (∀ call ∈ s.enqueues, ∃ data status, call = .returned data status) ∧
    ∀ call ∈ s.dequeues, ∃ data, call = .returned data

/-- An item is put. -/
def putOne : List FsqAction :=
  [.callEnqueue 5, .waitEnqueue 0, .insert 0 48, .compare 0, .postEnqueue 0]

/-- The same pointer is put a second time. -/
def putTwice : List FsqAction :=
  putOne ++ [.callEnqueue 5, .waitEnqueue 1, .insert 1 64, .compare 1, .postEnqueue 1]

/-- The second of two equal items. -/
theorem fsqPeek_agrees_twice :
    ∃ s, (fsqMachine 2).run newFsq putTwice = some s ∧
      (s.PeekAgrees ↔ ∃ data rest, s.put = s.taken ++ data :: data :: rest ∧ data ≠ 0) := by
  have hrun : (fsqMachine 2).run newFsq putTwice = some _ := rfl
  exact ⟨_, hrun, fsqPeek_agrees_iff (Machine.Reached.run (.start fsqMachine_start_newFsq) hrun)⟩

/-- On a queue with one item `NULL` is returned, and the next call of `FSQDequeue` returns the
item. -/
theorem fsqPeek_misses :
    ¬ ∀ (capacity : Nat) (s : FsqState), (fsqMachine capacity).Reached s → s.Quiet →
      s.PeekAgrees := by
  intro hagrees
  obtain ⟨s, hrun, henqueues, hdequeues, hpeek, memory, hremove⟩ :
      ∃ s, (fsqMachine 2).run newFsq putOne = some s ∧ s.enqueues = [.returned 5 0] ∧
        s.dequeues = [] ∧ s.fsq.fsqPeek = some 0 ∧
        ∃ memory, s.fsq.removeSection = some (memory, 5) :=
    ⟨_, rfl, rfl, rfl, rfl, _, rfl⟩
  have hquiet : s.Quiet := by simp [FsqState.Quiet, henqueues, hdequeues]
  obtain ⟨result, hresult, hnext, -⟩ :=
    hagrees 2 s (Machine.Reached.run (.start fsqMachine_start_newFsq) hrun) hquiet
  obtain rfl : 0 = result := by simpa [hpeek] using hresult
  exact absurd (hnext memory 5 hremove) (by decide)

end Ds
end InfinityLabs
