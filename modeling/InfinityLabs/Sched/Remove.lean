import InfinityLabs.Sched.Sched

/-!
# Removal from the scheduler

`HeapRemove` takes a match result of 0 for a match, and `TaskIsMatch` answers 1 for one.
So `SchedRemove` takes out the first task that does not carry the identifier.
-/

namespace InfinityLabs
namespace Sched

open Lib Lib.BinaryHeap Ds

variable {P : Type}

/-- A task of the queue carries the identifier. -/
def Carries (task : Task P) (uid : Uid) : Prop :=
  taskIsMatch task uid = 1

/-- What `SchedRemove` promises: with status 0 it destroys the task that carries the
identifier and keeps every other one, and with status 1 nothing changes. -/
structure RemovesTarget (sch : Scheduler P) (uid : Uid) : Prop where
  hit : ∀ task ∈ sch.heap.vector, Carries task uid →
    ∃ sch', schedRemove sch uid = (sch', 0, some task) ∧
      sch.heap.vector.toList.Perm (task :: sch'.heap.vector.toList) ∧ sch'.Wf
  miss : (∀ task ∈ sch.heap.vector, ¬ Carries task uid) → schedRemove sch uid = (sch, 1, none)

/-- A match result is 1 or 0. -/
theorem not_carries_iff {task : Task P} {uid : Uid} :
    ¬ Carries task uid ↔ wrapperTaskIsMatch task uid = 0 := by
  rw [Carries, wrapperTaskIsMatch, taskIsMatch]
  rcases uidIsSame_eq task.uid uid with hsame | hsame <;> simp [hsame]

/-- **What `SchedRemove` does**: it destroys a task that does not carry the identifier, or
finds that all of them carry it. -/
theorem schedRemove_cases (sch : Scheduler P) (uid : Uid) :
    ((∀ task ∈ sch.heap.vector, Carries task uid) ∧ schedRemove sch uid = (sch, 1, none)) ∨
      ∃ task ∈ sch.heap.vector, ¬ Carries task uid ∧
        ∃ sch', schedRemove sch uid = (sch', 0, some task) := by
  rw [schedRemove]
  rcases heapRemove_cases sch.heap uid wrapperTaskIsMatch with
    ⟨hall, hnone⟩ | ⟨i, hi, hmatch, -, hsome⟩
  · rw [hnone]
    exact Or.inl ⟨fun task htask => by_contra fun hnot =>
      hall task htask (not_carries_iff.mp hnot), rfl⟩
  · rw [hsome]
    exact Or.inr ⟨_, Array.getElem_mem hi, not_carries_iff.mpr hmatch, _, rfl⟩

/-- An empty queue has no tasks. -/
theorem not_mem_of_schedIsEmpty {sch : Scheduler P} (hempty : schedIsEmpty sch = true)
    (task : Task P) : task ∉ sch.heap.vector := by
  rw [Array.eq_empty_of_size_eq_zero (heapIsEmpty_iff.mp hempty)]
  exact Array.not_mem_empty task

/-- **When `SchedRemove` hits its target**: in a reachable scheduler exactly if the queue is
empty.  The queue keeps its order in any case. -/
theorem schedRemove_target {s : SchedState P} (hreached : (schedMachine P).Reached s)
    (uid : Uid) :
    (RemovesTarget s.sch uid ↔ schedIsEmpty s.sch = true) ∧ (schedRemove s.sch uid).1.Wf := by
  refine ⟨⟨fun h => ?_, fun hempty => ?_⟩, (schedMachine_wf hreached).remove uid⟩
  · by_contra hne
    have hpos : 0 < s.sch.heap.vector.size :=
      Nat.pos_of_ne_zero fun hsize => hne (heapIsEmpty_iff.mpr hsize)
    rcases schedRemove_cases s.sch uid with ⟨hall, hresult⟩ | ⟨task, -, hnot, sch', hresult⟩
    · -- the only task carries the identifier, and stays
      obtain ⟨sch', hhit, -⟩ := h.hit _ (Array.getElem_mem hpos) (hall _ (Array.getElem_mem hpos))
      have hstatus : (0 : Int) = 1 :=
        congrArg (fun result => result.2.1) (hhit.symm.trans hresult)
      exact absurd hstatus (by decide)
    · by_cases hcarried : ∃ target ∈ s.sch.heap.vector, Carries target uid
      · -- another task goes in place of the target
        obtain ⟨target, htarget, hcarries⟩ := hcarried
        obtain ⟨sch'', hhit, -⟩ := h.hit target htarget hcarries
        have hsame := congrArg (fun result => result.2.2) (hhit.symm.trans hresult)
        exact hnot (Option.some.inj hsame ▸ hcarries)
      · -- a task goes although none carries the identifier
        have hmiss := h.miss fun target htarget hcarries =>
          hcarried ⟨target, htarget, hcarries⟩
        have hstatus : (1 : Int) = 0 :=
          congrArg (fun result => result.2.1) (hmiss.symm.trans hresult)
        exact absurd hstatus (by decide)
  · refine ⟨fun task htask => absurd htask (not_mem_of_schedIsEmpty hempty task), fun _ => ?_⟩
    rcases schedRemove_cases s.sch uid with ⟨-, hresult⟩ | ⟨task, htask, -⟩
    · exact hresult
    · exact absurd htask (not_mem_of_schedIsEmpty hempty task)

/-! ## Two tasks -/

/-- The text 10.0.0.7. -/
def sampleAddress : List UInt8 := [49, 48, 46, 48, 46, 48, 46, 55]

/-- A task with the identifier `counter` that is due at the time `due`. -/
def sampleTask (counter : Nat) (due : Int) : Task Unit :=
  ⟨⟨counter, 100, 7, ipField sampleAddress⟩, due, (), (), (), ()⟩

/-- `SchedAdd` with memory, at the time 100. -/
def sampleAdd (timeExe : Nat) : SchedAction Unit :=
  .add ⟨true, 100, 7, some sampleAddress⟩ () () timeExe () ()

/-- The removal of the second task destroys the first one. -/
theorem schedRemove_missesTarget :
    ¬ ∀ s : SchedState Unit, (schedMachine Unit).Reached s → ∀ uid, RemovesTarget s.sch uid := by
  intro hclaim
  have hstart : (schedMachine Unit).Reached ⟨schedCreate, 0, 100, .idle, []⟩ :=
    .start ⟨0, 100, rfl⟩
  have hrun : ((schedMachine Unit).run ⟨schedCreate, 0, 100, .idle, []⟩
      [sampleAdd 1, sampleAdd 2]).map
        (fun s => (s.sch.heap.vector, (schedRemove s.sch (sampleTask 2 102).uid).2)) =
          some (#[sampleTask 1 101, sampleTask 2 102], 0, some (sampleTask 1 101)) := by
    decide +kernel
  obtain ⟨s, hs, hshown⟩ := hstart.run_map hrun
  have hvector : s.sch.heap.vector = #[sampleTask 1 101, sampleTask 2 102] :=
    congrArg Prod.fst hshown
  have hresult : (schedRemove s.sch (sampleTask 2 102).uid).2 = (0, some (sampleTask 1 101)) :=
    congrArg Prod.snd hshown
  have hqueued : sampleTask 2 102 ∈ s.sch.heap.vector := by
    rw [hvector]
    simp
  have hcarries : Carries (sampleTask 2 102) (sampleTask 2 102).uid := by
    unfold Carries
    decide +kernel
  obtain ⟨sch', hhit, -⟩ := (hclaim s hs _).hit _ hqueued hcarries
  rw [hhit] at hresult
  have hsame : sampleTask 2 102 = sampleTask 1 101 :=
    Option.some.inj (congrArg Prod.snd hresult)
  exact absurd hsame (by decide +kernel)

/-- A new scheduler removes nothing. -/
theorem schedRemove_target_sample :
    (RemovesTarget (schedCreate : Scheduler Unit) (sampleTask 2 102).uid ↔
      schedIsEmpty (schedCreate : Scheduler Unit) = true) ∧
        (schedRemove (schedCreate : Scheduler Unit) (sampleTask 2 102).uid).1.Wf :=
  schedRemove_target (s := ⟨schedCreate, 0, 100, .idle, []⟩) (.start ⟨0, 100, rfl⟩) _

end Sched
end InfinityLabs
