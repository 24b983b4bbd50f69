import InfinityLabs.Lib.Cells
import InfinityLabs.Lib.Chunks
import InfinityLabs.Lib.Histogram
import InfinityLabs.Lib.Runs
import Mathlib.Algebra.Group.Nat.Defs
import Mathlib.Tactic.Common

/-!
# The multi-threaded counting sort

`projects/sorting/src/mt_counting_sort.c`: every thread counts the bytes of its segment and adds
its counts to a shared histogram, one locked addition at a time.  When all threads are joined the
histogram is written out over the array.
-/

namespace InfinityLabs
namespace Sorting
namespace MtCountingSort

open Lib

/-- A call that meets the assertions of `MTCountingSort`. -/
structure Call where
  arr : List UInt8
  numOfThreads : Nat
  arr_pos : 0 < arr.length
  threads_pos : 0 < numOfThreads
  inMemory : arr.length < 2 ^ 64

/-- The number of values of a byte. -/
def ASCII : Nat := 256

/-- An array of `ASCII` counters. -/
abbrev Histogram :=
  UInt8 → Nat

/-- A counter grows. -/
def Histogram.add (h : Histogram) (b : UInt8) (n : Nat) : Histogram :=
  fun c => if c = b then (h c + n) % 2 ^ 64 else h c

/-- `thread_data_t`; the array, the histogram and the lock are shared. -/
structure ThreadData where
  startIndex : Nat
  endIndex : Nat
  deriving DecidableEq, Repr

/-- Where a thread is in `CountSegment`, with the index of the loop it is in. -/
inductive Phase where
  | counting (i : Nat)
  | adding (i : Nat)
  | returned
  deriving DecidableEq, Repr

/-- A thread that runs `CountSegment`. -/
structure Thread where
  data : ThreadData
  localCount : Histogram
  phase : Phase

/-- The histogram and the threads. -/
structure State where
  globalCount : Histogram
  threads : List Thread

namespace Call

variable (call : Call)

/-- What `MTCountingSort` gives to thread `i`. -/
def threadData (i : Nat) : ThreadData where
  startIndex := i * (call.arr.length / call.numOfThreads) % 2 ^ 64
  endIndex :=
    if i = call.numOfThreads - 1 then call.arr.length
    else (i + 1) * (call.arr.length / call.numOfThreads) % 2 ^ 64

/-- A thread that has just been created. -/
def createThread (i : Nat) : Thread where
  data := call.threadData i
  localCount := fun _ => 0
  phase := .counting (call.threadData i).startIndex

/-- The threads have been created. -/
def created : State where
  globalCount := fun _ => 0
  threads := (List.range call.numOfThreads).map call.createThread

/-- The next step of a thread: a pass of the counting loop, or a pass of the adding loop, whose
addition is made under the lock. -/
def threadStep (t : Thread) (globalCount : Histogram) : Option (Thread × Histogram) :=
  match t.phase with
  | .counting i =>
      if i < t.data.endIndex then
        match call.arr[i]? with
        | none => none
        | some b =>
            some ({ t with localCount := t.localCount.add b 1, phase := .counting (i + 1) },
              globalCount)
      else some ({ t with phase := .adding 0 }, globalCount)
  | .adding i =>
      if i < ASCII then
        let b := UInt8.ofNat i
        some ({ t with phase := .adding (i + 1) },
          if t.localCount b ≠ 0 then globalCount.add b (t.localCount b) else globalCount)
      else some ({ t with phase := .returned }, globalCount)
  | .returned => none

/-- The thread with the given number takes its next step. -/
def step (s : State) (k : Nat) : Option State :=
  match s.threads[k]? with
  | none => none
  | some t =>
      match call.threadStep t s.globalCount with
      | none => none
      | some (t, globalCount) =>
          some { globalCount := globalCount, threads := s.threads.set k t }

/-- The threads under every schedule. -/
def machine : Machine State Nat where
  start s := s = call.created
  step := call.step

/-- `arr[pos++] = (char)i`. -/
def writeByte (b : UInt8) (s : List UInt8 × Nat) (_j : Nat) : Except Fault (List UInt8 × Nat) := do
  let arr ← writeCell s.1 s.2 b
  .ok (arr, (s.2 + 1) % 2 ^ 64)

end Call

/-- All threads can be joined. -/
def State.Joined (s : State) : Prop :=
  ∀ t ∈ s.threads, t.phase = .returned

/-! ## Segments -/

namespace Call

variable (call : Call)

/-- The bytes of a thread. -/
def segment (data : ThreadData) : List UInt8 :=
  (call.arr.drop data.startIndex).take (data.endIndex - data.startIndex)

variable {call} {i : Nat}

theorem threadData_eq (hi : i < call.numOfThreads) : call.threadData i =
    ⟨chunkStart call.arr.length call.numOfThreads i,
      chunkEnd call.arr.length call.numOfThreads i⟩ := by
  unfold threadData
  rw [chunkStart_mod hi call.inMemory, chunkEnd_mod hi call.inMemory]

variable (call)

/-- What a thread has counted. -/
structure Counted (t : Thread) : Prop where
  start_le : t.data.startIndex ≤ t.data.endIndex
  end_le : t.data.endIndex ≤ call.arr.length
  counting : ∀ i, t.phase = .counting i → t.data.startIndex ≤ i ∧ i ≤ t.data.endIndex ∧
    ∀ b, t.localCount b = (call.segment ⟨t.data.startIndex, i⟩).count b
  adding : ∀ i, t.phase = .adding i → i ≤ ASCII ∧
    ∀ b, t.localCount b = (call.segment t.data).count b

/-- What a thread has still to add to the counter of a byte. -/
def owed (b : UInt8) (t : Thread) : Nat :=
  match t.phase with
  | .counting _ => (call.segment t.data).count b
  | .adding i => if i ≤ b.toNat then (call.segment t.data).count b else 0
  | .returned => 0

/-- The steps that a thread has still to take. -/
def remaining (t : Thread) : Nat :=
  match t.phase with
  | .counting i => (t.data.endIndex - i) + (ASCII + 2)
  | .adding i => (ASCII - i) + 1
  | .returned => 0

variable {call} {t t' : Thread} {g g' : Histogram}

/-- One more byte is counted. -/
theorem count_segment_succ {start b : Nat} {x c : UInt8} (hstart : start ≤ b)
    (hx : call.arr[b]? = some x) :
    (call.segment ⟨start, b + 1⟩).count c =
      (call.segment ⟨start, b⟩).count c + if c = x then 1 else 0 := by
  have hsplit : call.segment ⟨start, b + 1⟩ = call.segment ⟨start, b⟩ ++ [x] := by
    have hlength : b + 1 - start = b - start + 1 := by omega
    have hget : (call.arr.drop start)[b - start]? = some x := by
      rw [List.getElem?_drop, Nat.add_sub_cancel' hstart, hx]
    unfold segment
    dsimp only
    rw [hlength, List.take_add_one, hget]
    rfl
  rw [hsplit, List.count_append, List.count_singleton]
  congr 1
  by_cases hcx : c = x
  case pos => simp [hcx]
  case neg => simp [hcx, Ne.symm hcx]

/-- A counter that does not overflow. -/
theorem add_apply {h : Histogram} {b c : UInt8} {n : Nat} (hroom : h c + n < 2 ^ 64) :
    h.add b n c = h c + if c = b then n else 0 := by
  unfold Histogram.add
  by_cases hcb : c = b
  case pos => rw [if_pos hcb, if_pos hcb, Nat.mod_eq_of_lt hroom]
  case neg => rw [if_neg hcb, if_neg hcb, Nat.add_zero]

/-- A pass of the counting loop. -/
theorem counted_of_counting {i : Nat} {x : UInt8} (ht : call.Counted t)
    (hphase : t.phase = .counting i) (hi : i < t.data.endIndex) (hx : call.arr[i]? = some x) :
    call.Counted { t with localCount := t.localCount.add x 1, phase := .counting (i + 1) } where
  start_le := ht.start_le
  end_le := ht.end_le
  counting := by
    rintro _ ⟨⟩
    obtain ⟨hstart, -, hcount⟩ := ht.counting i hphase
    show t.data.startIndex ≤ i + 1 ∧ i + 1 ≤ t.data.endIndex ∧ ∀ c, t.localCount.add x 1 c =
      (call.segment ⟨t.data.startIndex, i + 1⟩).count c
    refine ⟨by omega, hi, fun c => ?_⟩
    have hmemory := call.inMemory
    have hlength : (call.segment ⟨t.data.startIndex, i⟩).length ≤ i := by
      unfold segment
      simp only [List.length_take]
      omega
    have hle := (call.segment ⟨t.data.startIndex, i⟩).count_le_length (a := c)
    have hend := ht.end_le
    rw [add_apply (by rw [hcount]; omega), count_segment_succ hstart hx, hcount]
  adding := by rintro _ ⟨⟩

/-- The counting loop ends. -/
theorem counted_of_end {i : Nat} (ht : call.Counted t) (hphase : t.phase = .counting i)
    (hi : ¬ i < t.data.endIndex) : call.Counted { t with phase := .adding 0 } where
  start_le := ht.start_le
  end_le := ht.end_le
  counting := by rintro _ ⟨⟩
  adding := by
    rintro _ ⟨⟩
    obtain ⟨-, hle, hcount⟩ := ht.counting i hphase
    obtain rfl : i = t.data.endIndex := by omega
    exact ⟨by decide, hcount⟩

/-- An addition pays what the thread owes to one counter. -/
theorem add_owed {i : Nat} (ht : call.Counted t) (hphase : t.phase = .adding i) (hi : i < ASCII)
    (hroom : ∀ b, g b + call.owed b t < 2 ^ 64) (c : UInt8) :
    (if t.localCount (UInt8.ofNat i) ≠ 0 then
        g.add (UInt8.ofNat i) (t.localCount (UInt8.ofNat i)) else g) c +
        call.owed c { t with phase := .adding (i + 1) } = g c + call.owed c t := by
  obtain ⟨-, hcount⟩ := ht.adding i hphase
  have howed : call.owed c t = if i ≤ c.toNat then (call.segment t.data).count c else 0 := by
    simp only [owed, hphase]
  have hroom_c := hroom c
  have hbyte : (UInt8.ofNat i).toNat = i := by
    unfold ASCII at hi
    rw [UInt8.toNat_ofNat']
    omega
  show _ + (if i + 1 ≤ c.toNat then (call.segment t.data).count c else 0) = _
  rw [howed] at hroom_c ⊢
  by_cases hc : c = UInt8.ofNat i
  case pos =>
    subst hc
    have hpaid : ¬ i + 1 ≤ i := by omega
    rw [hbyte, if_pos (Nat.le_refl i)] at hroom_c
    rw [hbyte, if_pos (Nat.le_refl i), if_neg hpaid, Nat.add_zero, ← hcount]
    by_cases hzero : t.localCount (UInt8.ofNat i) = 0
    case pos =>
      rw [hzero, Nat.add_zero]
      exact congrFun (if_neg (not_not_intro rfl)) _
    case neg =>
      have hadded : g.add (UInt8.ofNat i) (t.localCount (UInt8.ofNat i)) (UInt8.ofNat i) =
          g (UInt8.ofNat i) + t.localCount (UInt8.ofNat i) := by
        rw [add_apply (by rwa [hcount]), if_pos rfl]
      rw [← hadded]
      exact congrFun (if_pos hzero) _
  case neg =>
    have hne : c.toNat ≠ i := fun h => hc (UInt8.toNat_inj.mp (h.trans hbyte.symm))
    have hkept : (if t.localCount (UInt8.ofNat i) ≠ 0 then
        g.add (UInt8.ofNat i) (t.localCount (UInt8.ofNat i)) else g) c = g c := by
      split
      · exact if_neg hc
      · rfl
    rw [hkept]
    congr 1
    by_cases hle : i ≤ c.toNat
    case pos => rw [if_pos hle, if_pos (by omega)]
    case neg => rw [if_neg hle, if_neg (by omega)]

/-- A step of a thread keeps what it has counted, moves to the histogram what it owes less, and is
one of finitely many. -/
theorem threadStep_spec (ht : call.Counted t)
    (hroom : ∀ b, g b + call.owed b t < 2 ^ 64) (hstep : call.threadStep t g = some (t', g')) :
    call.Counted t' ∧ (∀ b, g' b + call.owed b t' = g b + call.owed b t) ∧
      remaining t' + 1 = remaining t := by
  unfold threadStep at hstep
  match hphase : t.phase with
  | .counting i =>
      simp only [hphase] at hstep
      by_cases hi : i < t.data.endIndex
      case pos =>
        rw [if_pos hi] at hstep
        cases hx : call.arr[i]? with
        | none => simp [hx] at hstep
        | some x =>
            simp only [hx, Option.some.injEq, Prod.mk.injEq] at hstep
            obtain ⟨rfl, rfl⟩ := hstep
            refine ⟨counted_of_counting ht hphase hi hx, fun b => ?_, ?_⟩
            · simp [owed, hphase]
            · simp only [remaining, hphase]
              omega
      case neg =>
        simp only [if_neg hi, Option.some.injEq, Prod.mk.injEq] at hstep
        obtain ⟨rfl, rfl⟩ := hstep
        refine ⟨counted_of_end ht hphase hi, fun b => ?_, ?_⟩
        · simp [owed, hphase]
        · simp only [remaining, hphase]
          omega
  | .adding i =>
      simp only [hphase] at hstep
      obtain ⟨hle, hcount⟩ := ht.adding i hphase
      by_cases hi : i < ASCII
      case pos =>
        simp only [if_pos hi, Option.some.injEq, Prod.mk.injEq] at hstep
        obtain ⟨rfl, rfl⟩ := hstep
        refine ⟨⟨ht.start_le, ht.end_le, by rintro _ ⟨⟩, ?_⟩, add_owed ht hphase hi hroom, ?_⟩
        · rintro _ ⟨⟩
          exact ⟨hi, hcount⟩
        · simp only [remaining, hphase]
          omega
      case neg =>
        simp only [if_neg hi, Option.some.injEq, Prod.mk.injEq] at hstep
        obtain ⟨rfl, rfl⟩ := hstep
        refine ⟨⟨ht.start_le, ht.end_le, by rintro _ ⟨⟩, by rintro _ ⟨⟩⟩, fun b => ?_, ?_⟩
        · have hb := b.toNat_lt
          have hpaid : ¬ i ≤ b.toNat := by
            unfold ASCII at hi
            omega
          simp [owed, hphase, hpaid]
        · simp only [remaining, hphase]
          omega
  | .returned => simp [hphase] at hstep

/-- A thread that has not returned can take a step. -/
theorem exists_threadStep (ht : call.Counted t) (hphase : t.phase ≠ .returned) (g : Histogram) :
    ∃ t' g', call.threadStep t g = some (t', g') := by
  unfold threadStep
  match h : t.phase with
  | .counting i =>
      by_cases hi : i < t.data.endIndex
      case pos =>
        have hend := ht.end_le
        simp [hi, List.getElem?_eq_getElem (show i < call.arr.length by omega)]
      case neg => simp [hi]
  | .adding i => by_cases hi : i < ASCII <;> simp [hi]
  | .returned => exact absurd h hphase

/-! ## Schedules -/

variable (call)

/-- What is in the histogram and what the threads owe make up the counts of the array. -/
structure Balanced (s : State) : Prop where
  counted : ∀ t ∈ s.threads, call.Counted t
  total : ∀ b, s.globalCount b + (s.threads.map (call.owed b)).sum = call.arr.count b

variable {call}

/-- What one thread owes and what is in the histogram fits a counter. -/
theorem Balanced.room {s : State} (h : call.Balanced s) {k : Nat} (ht : s.threads[k]? = some t)
    (b : UInt8) : s.globalCount b + call.owed b t < 2 ^ 64 := by
  have hmemory := call.inMemory
  have htotal := h.total b
  have hcount := call.arr.count_le_length (a := b)
  have hle : call.owed b t ≤ (s.threads.map (call.owed b)).sum := by
    obtain ⟨l, r, hsplit, -, -⟩ := exists_split_of_getElem? ht
    rw [hsplit, List.map_append, List.map_cons, List.sum_append, List.sum_cons]
    omega
  omega

/-- Every step keeps the balance and is one of finitely many. -/
theorem Balanced.step {s s' : State} {k : Nat} (h : call.Balanced s)
    (hstep : call.step s k = some s') :
    call.Balanced s' ∧
      (s'.threads.map remaining).sum + 1 = (s.threads.map remaining).sum := by
  unfold Call.step at hstep
  cases ht : s.threads[k]? with
  | none => simp [ht] at hstep
  | some t =>
      rw [ht] at hstep
      cases hthread : call.threadStep t s.globalCount with
      | none => simp [hthread] at hstep
      | some r =>
          obtain ⟨t', g'⟩ := r
          simp only [hthread, Option.some.injEq] at hstep
          subst hstep
          obtain ⟨hcounted, htotal, hremaining⟩ :=
            threadStep_spec (h.counted t (List.mem_of_getElem? ht)) (h.room ht) hthread
          refine ⟨⟨forall_mem_set h.counted hcounted, fun b => ?_⟩, ?_⟩
          · have hsum := sum_map_set_add ht t' (call.owed b)
            have hb := htotal b
            have hs := h.total b
            show g' b + ((s.threads.set k t').map (call.owed b)).sum = call.arr.count b
            omega
          · have hsum := sum_map_set_add ht t' remaining
            show ((s.threads.set k t').map remaining).sum + 1 = _
            omega

/-- A thread that has not returned is never stuck. -/
theorem Balanced.exists_step {s : State} (h : call.Balanced s) {k : Nat}
    (ht : s.threads[k]? = some t) (hphase : t.phase ≠ .returned) :
    ∃ s', call.step s k = some s' := by
  obtain ⟨t', g', hthread⟩ :=
    exists_threadStep (h.counted t (List.mem_of_getElem? ht)) hphase s.globalCount
  unfold Call.step
  rw [ht]
  simp [hthread]

end Call

end MtCountingSort
end Sorting
end InfinityLabs
