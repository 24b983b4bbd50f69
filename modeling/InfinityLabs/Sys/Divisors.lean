import InfinityLabs.Lib.Chunks
import InfinityLabs.Lib.Runs
import Mathlib.Algebra.BigOperators.Intervals
import Mathlib.NumberTheory.Divisors

/-!
# The divisors of a number, by many threads

`system_programming/src/threads/ex4_thread.c`, and `SimpleSumDivisors` of `ex5_thread.c`.  Each
thread adds up the divisors in its range of the numbers up to `TARGET_NUMBER`; `main` makes the
threads while the first ones run already, joins them, and adds up what they found.

The range of a thread is a chunk of `TARGET_NUMBER` numbers, counted from 1.  A sum is a `size_t`
and wraps.
-/

namespace InfinityLabs
namespace Sys
namespace Divisors

open Lib

/-- `TARGET_NUMBER` and `NUM_THREADS`; the counter of a loop gets beyond the last number. -/
structure Problem where
  target : Nat
  numThreads : Nat
  threads_pos : 0 < numThreads
  inMemory : target + 1 < 2 ^ 64

/-- Where a thread is in `CalculateSumOfDivisors`. -/
inductive Phase where
  | summing (i sum : Nat)
  | returned
  deriving DecidableEq, Repr

/-- `thread_data_t`, and the thread that works on it. -/
structure ThreadData where
  start_range : Nat
  end_range : Nat
  partial_sum : Nat
  phase : Phase
  deriving DecidableEq, Repr

/-- Where `main` is: in the loops of `CreateThreads` or in that of `ShowResults`. -/
inductive Main where
  | create (i : Nat)
  | join (i : Nat)
  | showResults (i total_sum : Nat)
  | done (total_sum : Nat)
  deriving DecidableEq, Repr

/-- `main` and the threads it has made. -/
structure State where
  main : Main
  threads : List ThreadData
  deriving DecidableEq, Repr

/-- Who takes the next step; `pthread_create` may fail, and is called again. -/
inductive Action where
  | thread (k : Nat)
  | main
  | createFails
  deriving DecidableEq, Repr

namespace Problem

variable (p : Problem)

/-- What `CreateThreads` gives to thread `i`. -/
def threadData (i : Nat) : ThreadData :=
  let range_size := p.target / p.numThreads
  let start_range := (i * range_size + 1) % 2 ^ 64
  { start_range := start_range
    end_range :=
      if i = p.numThreads - 1 then p.target else (i + 1) * range_size % 2 ^ 64
    partial_sum := 0
    phase := .summing start_range 0 }

/-- A pass of the loop of `CalculateSumOfDivisors`, or its end. -/
def threadStep (t : ThreadData) : Option ThreadData :=
  match t.phase with
  | .summing i sum =>
      if i ≤ t.end_range then
        let sum := if p.target % i = 0 then (sum + i) % 2 ^ 64 else sum
        some { t with phase := .summing ((i + 1) % 2 ^ 64) sum }
      else some { t with partial_sum := sum, phase := .returned }
  | .returned => none

/-- A pass of one of the loops of `main`, or its end. -/
def mainStep (s : State) : Option State :=
  match s.main with
  | .create i =>
      if i < p.numThreads then
        some { main := .create (i + 1), threads := s.threads ++ [p.threadData i] }
      else some { s with main := .join 0 }
  | .join i =>
      if i < p.numThreads then
        match s.threads[i]? with
        | none => none
        | some t => if t.phase = .returned then some { s with main := .join (i + 1) } else none
      else some { s with main := .showResults 0 0 }
  | .showResults i total_sum =>
      if i < p.numThreads then
        match s.threads[i]? with
        | none => none
        | some t => some { s with main := .showResults (i + 1) ((total_sum + t.partial_sum) % 2 ^ 64) }
      else some { s with main := .done total_sum }
  | .done _ => none

/-- One step. -/
def step (s : State) : Action → Option State
  | .thread k =>
      match s.threads[k]? with
      | none => none
      | some t => (p.threadStep t).map fun t => { s with threads := s.threads.set k t }
  | .main => p.mainStep s
  | .createFails =>
      match s.main with
      | .create i => if i < p.numThreads then some s else none
      | _ => none

/-- `main` before its first thread. -/
def started : State where
  main := .create 0
  threads := []

/-- The program under every schedule. -/
def machine : Machine State Action where
  start s := s = started
  step := p.step

/-- The loop of `SimpleSumDivisors` on what is left of its range. -/
def simpleLoop (target : Nat) : List Nat → Nat → Nat
  | [], sum => sum
  | i :: rest, sum =>
      simpleLoop target rest (if target % i = 0 then (sum + i) % 2 ^ 64 else sum)

/-- `SimpleSumDivisors`. -/
def simpleSumDivisors : Nat :=
  simpleLoop p.target (List.range' 1 p.target) 0

/-! ## Sums over ranges -/

/-- What a number adds to the sum. -/
def term (i : Nat) : Nat :=
  if p.target % i = 0 then i else 0

/-- The divisors that are more than `a` and at most `b`, added up. -/
def rangeSum (a b : Nat) : Nat :=
  ∑ k ∈ Finset.Ico a b, p.term (k + 1)

variable {p} {i : Nat}

theorem rangeSum_self (a : Nat) : p.rangeSum a a = 0 := by
  rw [rangeSum, Finset.Ico_self, Finset.sum_empty]

/-- A pass of the loop. -/
theorem rangeSum_succ {a b : Nat} (hab : a ≤ b) :
    p.rangeSum a (b + 1) = p.rangeSum a b + p.term (b + 1) :=
  Finset.sum_Ico_succ_top hab _

/-- All divisors. -/
theorem rangeSum_all : p.rangeSum 0 p.target = ∑ d ∈ p.target.divisors, d := by
  rw [rangeSum, Finset.sum_Ico_add' (fun k => p.term k) 0 p.target 1, Nat.divisors,
    Finset.sum_filter]
  refine Finset.sum_congr (by rw [Nat.zero_add]) fun i _ => ?_
  rw [term]
  exact if_congr Nat.dvd_iff_mod_eq_zero.symm rfl rfl

/-! ## A thread -/

variable (p)

/-- What thread `i` has found. -/
structure Sums (i : Nat) (t : ThreadData) : Prop where
  stop : t.end_range = chunkEnd p.target p.numThreads i
  summing : ∀ j sum, t.phase = .summing j sum →
    chunkStart p.target p.numThreads i + 1 ≤ j ∧ j ≤ chunkEnd p.target p.numThreads i + 1 ∧
      sum = p.rangeSum (chunkStart p.target p.numThreads i) (j - 1) % 2 ^ 64
  returned : t.phase = .returned →
    t.partial_sum = p.rangeSum (chunkStart p.target p.numThreads i)
      (chunkEnd p.target p.numThreads i) % 2 ^ 64

/-- The steps that a thread has before it. -/
def remaining (t : ThreadData) : Nat :=
  match t.phase with
  | .summing j _ => t.end_range + 1 - j + 1
  | .returned => 0

/-- The steps of thread `i`. -/
def cost (i : Nat) : Nat :=
  chunkEnd p.target p.numThreads i - chunkStart p.target p.numThreads i + 1

variable {p} {t t' : ThreadData}

theorem threadData_eq (hi : i < p.numThreads) : p.threadData i =
    { start_range := chunkStart p.target p.numThreads i + 1
      end_range := chunkEnd p.target p.numThreads i
      partial_sum := 0
      phase := .summing (chunkStart p.target p.numThreads i + 1) 0 } := by
  have hmemory := p.inMemory
  have hle : chunkStart p.target p.numThreads i ≤ p.target := chunkStart_le hi
  have hstart : (i * (p.target / p.numThreads) + 1) % 2 ^ 64 =
      chunkStart p.target p.numThreads i + 1 := by
    rw [chunkStart] at hle ⊢
    exact Nat.mod_eq_of_lt (by omega)
  have hend := chunkEnd_mod (m := 2 ^ 64) hi (show p.target < 2 ^ 64 by omega)
  simp only [threadData, hstart, hend]

/-- A new thread. -/
theorem sums_threadData (hi : i < p.numThreads) :
    p.Sums i (p.threadData i) ∧ remaining (p.threadData i) = p.cost i := by
  have hle : chunkStart p.target p.numThreads i ≤ chunkEnd p.target p.numThreads i :=
    chunkStart_le_chunkEnd hi
  rw [threadData_eq hi]
  refine ⟨⟨rfl, ?_, nofun⟩, ?_⟩
  · rintro j sum ⟨⟩
    rw [Nat.add_sub_cancel, rangeSum_self]
    exact ⟨le_rfl, by omega, rfl⟩
  · simp only [remaining, cost]
    omega

/-- A step of a thread keeps what it has found, and is one of finitely many. -/
theorem threadStep_spec (hi : i < p.numThreads) (ht : p.Sums i t)
    (hstep : p.threadStep t = some t') : p.Sums i t' ∧ remaining t' + 1 = remaining t := by
  have hmemory := p.inMemory
  have hend : chunkEnd p.target p.numThreads i ≤ p.target := chunkEnd_le hi
  unfold threadStep at hstep
  cases hphase : t.phase with
  | summing j sum =>
      obtain ⟨hlow, hhigh, hsum⟩ := ht.summing j sum hphase
      simp only [hphase] at hstep
      split at hstep
      · rename_i hj
        rw [ht.stop] at hj
        obtain rfl := Option.some.inj hstep
        have hnext : (j + 1) % 2 ^ 64 = j + 1 := Nat.mod_eq_of_lt (by omega)
        obtain ⟨k, rfl⟩ : ∃ k, j = k + 1 := ⟨j - 1, by omega⟩
        refine ⟨⟨ht.stop, ?_, nofun⟩, ?_⟩
        · rintro _ _ ⟨⟩
          rw [hnext]
          refine ⟨by omega, by omega, ?_⟩
          rw [Nat.add_sub_cancel, rangeSum_succ (by omega), term, hsum, Nat.add_sub_cancel]
          split
          · rw [Nat.mod_add_mod]
          · rw [Nat.add_zero]
        · simp only [remaining, hphase, hnext, ht.stop]
          omega
      · rename_i hj
        rw [ht.stop] at hj
        obtain rfl := Option.some.inj hstep
        refine ⟨⟨ht.stop, nofun, fun _ => ?_⟩, ?_⟩
        · obtain rfl : j = chunkEnd p.target p.numThreads i + 1 := by omega
          rwa [Nat.add_sub_cancel] at hsum
        · simp only [remaining, hphase, ht.stop]
          omega
  | returned =>
      rw [hphase] at hstep
      cases hstep

/-! ## All threads -/

variable (p)

/-- What holds at each place of `main`. -/
def MainInv (s : State) : Main → Prop
  | .create i => s.threads.length = i ∧ i ≤ p.numThreads
  | .join i => s.threads.length = p.numThreads ∧ i ≤ p.numThreads ∧
      ∀ k < i, ∀ t : ThreadData, s.threads[k]? = some t → t.phase = .returned
  | .showResults i total_sum => s.threads.length = p.numThreads ∧ i ≤ p.numThreads ∧
      (∀ (k : Nat) (t : ThreadData), s.threads[k]? = some t → t.phase = .returned) ∧
      total_sum = (∑ k ∈ Finset.range i, p.rangeSum (chunkStart p.target p.numThreads k)
        (chunkEnd p.target p.numThreads k)) % 2 ^ 64
  | .done total_sum => total_sum = (∑ d ∈ p.target.divisors, d) % 2 ^ 64

/-- What holds at every moment. -/
structure Inv (s : State) : Prop where
  length : s.threads.length ≤ p.numThreads
  threads : ∀ i t, s.threads[i]? = some t → p.Sums i t
  main : p.MainInv s s.main

/-- The steps of `main` that are before it, and those of the threads it has not made. -/
def mainRank : Main → Nat
  | .create i => (p.numThreads - i) + 2 * p.numThreads + 3 +
      ∑ k ∈ Finset.Ico i p.numThreads, p.cost k
  | .join i => (p.numThreads - i) + p.numThreads + 2
  | .showResults i _ => (p.numThreads - i) + 1
  | .done _ => 0

/-- The steps that are before the program. -/
def rank (s : State) : Nat :=
  p.mainRank s.main + (s.threads.map remaining).sum

variable {p} {s s' : State} {a : Action}

theorem inv_started : p.Inv started where
  length := Nat.zero_le _
  threads i t ht := by cases ht
  main := ⟨rfl, Nat.zero_le _⟩

/-- The program has so many steps. -/
theorem rank_started : p.rank started = p.target + 4 * p.numThreads + 3 := by
  have hcost : ∑ k ∈ Finset.Ico 0 p.numThreads, p.cost k = p.target + p.numThreads := by
    have hlengths : ∑ c ∈ Finset.range p.numThreads,
        ∑ _k ∈ Finset.Ico (chunkStart p.target p.numThreads c) (chunkEnd p.target p.numThreads c),
          1 = ∑ _k ∈ Finset.Ico 0 p.target, 1 := sum_chunks (fun _ => 1) p.threads_pos
    simp only [← Finset.card_eq_sum_ones, Nat.card_Ico, Nat.sub_zero] at hlengths
    simp only [cost]
    rw [Finset.sum_add_distrib, ← Finset.range_eq_Ico, hlengths, ← Finset.card_eq_sum_ones,
      Finset.card_range]
  simp only [rank, started, mainRank, hcost, List.map_nil, List.sum_nil]
  omega

/-- A step of a thread. -/
theorem Inv.threadStep (h : p.Inv s) {k : Nat} (hstep : p.step s (.thread k) = some s') :
    p.Inv s' ∧ p.rank s' + 1 = p.rank s := by
  simp only [step] at hstep
  split at hstep
  · cases hstep
  · rename_i t ht
    obtain ⟨t', ht', rfl⟩ := Option.map_eq_some_iff.mp hstep
    have hk := (List.getElem?_eq_some_iff.mp ht).1
    obtain ⟨hsums, hremaining⟩ :=
      threadStep_spec (Nat.lt_of_lt_of_le hk h.length) (h.threads k t ht) ht'
    have hother : ∀ i u, (s.threads.set k t')[i]? = some u →
        i = k ∧ u = t' ∨ i ≠ k ∧ s.threads[i]? = some u := by
      intro i u hu
      by_cases hik : i = k
      · rw [hik, List.getElem?_set_self hk] at hu
        exact Or.inl ⟨hik, (Option.some.inj hu).symm⟩
      · rw [List.getElem?_set_ne (Ne.symm hik)] at hu
        exact Or.inr ⟨hik, hu⟩
    -- a thread that has returned takes no step
    have hrunning : t.phase ≠ .returned := by
      intro hreturned
      rw [Problem.threadStep, hreturned] at ht'
      cases ht'
    refine ⟨⟨by rw [List.length_set]; exact h.length, fun i u hu => ?_, ?_⟩, ?_⟩
    · rcases hother i u hu with ⟨rfl, rfl⟩ | ⟨-, hu⟩
      · exact hsums
      · exact h.threads i u hu
    · have hmain := h.main
      change p.MainInv _ s.main
      cases hm : s.main with
      | create i =>
          rw [hm] at hmain
          exact ⟨by rw [List.length_set]; exact hmain.1, hmain.2⟩
      | join i =>
          rw [hm] at hmain
          refine ⟨by rw [List.length_set]; exact hmain.1, hmain.2.1, fun j hj u hu => ?_⟩
          rcases hother j u hu with ⟨rfl, rfl⟩ | ⟨-, hu⟩
          · exact absurd (hmain.2.2 j hj t ht) hrunning
          · exact hmain.2.2 j hj u hu
      | showResults i total_sum =>
          rw [hm] at hmain
          exact absurd (hmain.2.2.1 k t ht) hrunning
      | done total_sum =>
          rw [hm] at hmain
          exact hmain
    · have hsum := sum_map_set_add ht t' remaining
      simp only [rank]
      omega

/-- A step of `main`. -/
theorem Inv.mainStep (h : p.Inv s) (hstep : p.mainStep s = some s') :
    p.Inv s' ∧ p.rank s' + 1 = p.rank s := by
  have hmain := h.main
  unfold Problem.mainStep at hstep
  cases hm : s.main with
  | create i =>
      rw [hm] at hmain
      obtain ⟨hlength, hi⟩ := hmain
      simp only [hm] at hstep
      split at hstep
      · rename_i hlt
        obtain rfl := Option.some.inj hstep
        obtain ⟨hsums, hremaining⟩ := sums_threadData hlt
        refine ⟨⟨?_, fun k t hk => ?_, ?_⟩, ?_⟩
        · rw [List.length_append, List.length_singleton]
          omega
        · by_cases hold : k < s.threads.length
          · rw [List.getElem?_append_left hold] at hk
            exact h.threads k t hk
          · have hlast := (List.getElem?_eq_some_iff.mp hk).1
            rw [List.length_append, List.length_singleton] at hlast
            obtain rfl : k = s.threads.length := by omega
            rw [List.getElem?_append_right (Nat.le_refl _), Nat.sub_self,
              List.getElem?_cons_zero] at hk
            rw [hlength, ← Option.some.inj hk]
            exact hsums
        · refine ⟨?_, hlt⟩
          rw [List.length_append, List.length_singleton, hlength]
        · have hcosts := Finset.sum_eq_sum_Ico_succ_bot hlt p.cost
          simp only [rank, mainRank, hm, List.map_append, List.map_cons, List.map_nil,
            List.sum_append, List.sum_cons, List.sum_nil, hremaining]
          omega
      · obtain rfl := Option.some.inj hstep
        obtain rfl : i = p.numThreads := by omega
        refine ⟨⟨h.length, h.threads, hlength, Nat.zero_le _, nofun⟩, ?_⟩
        simp only [rank, mainRank, hm, Finset.Ico_self, Finset.sum_empty]
        omega
  | join i =>
      rw [hm] at hmain
      obtain ⟨hlength, hi, hjoined⟩ := hmain
      simp only [hm] at hstep
      split at hstep
      · rename_i hlt
        split at hstep
        · cases hstep
        · rename_i t ht
          split at hstep
          · rename_i hreturned
            obtain rfl := Option.some.inj hstep
            refine ⟨⟨h.length, h.threads, hlength, hlt, fun k hk u hu => ?_⟩, ?_⟩
            · rcases Nat.lt_succ_iff_lt_or_eq.mp hk with hk | rfl
              · exact hjoined k hk u hu
              · rwa [← Option.some.inj (ht.symm.trans hu)]
            · simp only [rank, mainRank, hm]
              omega
          · cases hstep
      · obtain rfl := Option.some.inj hstep
        obtain rfl : i = p.numThreads := by omega
        refine ⟨⟨h.length, h.threads, hlength, Nat.zero_le _, fun k t ht => ?_, rfl⟩, ?_⟩
        · have hk : k < s.threads.length := (List.getElem?_eq_some_iff.mp ht).1
          exact hjoined k (by omega) t ht
        · simp only [rank, mainRank, hm]
          omega
  | showResults i total_sum =>
      rw [hm] at hmain
      obtain ⟨hlength, hi, hreturned, hsum⟩ := hmain
      simp only [hm] at hstep
      split at hstep
      · rename_i hlt
        split at hstep
        · cases hstep
        · rename_i t ht
          obtain rfl := Option.some.inj hstep
          refine ⟨⟨h.length, h.threads, hlength, hlt, hreturned, ?_⟩, ?_⟩
          · rw [Finset.sum_range_succ, hsum, (h.threads i t ht).returned (hreturned i t ht),
              ← Nat.add_mod]
          · simp only [rank, mainRank, hm]
            omega
      · obtain rfl := Option.some.inj hstep
        obtain rfl : i = p.numThreads := by omega
        refine ⟨⟨h.length, h.threads, ?_⟩, ?_⟩
        · change total_sum = _
          rw [hsum, ← rangeSum_all]
          exact congrArg (· % 2 ^ 64) (sum_chunks (fun k => p.term (k + 1)) p.threads_pos)
        · simp only [rank, mainRank, hm]
          omega
  | done total_sum =>
      rw [hm] at hstep
      cases hstep

/-- A step keeps what holds, and takes one from the steps that are before the program, unless a
thread cannot be made. -/
theorem Inv.step (h : p.Inv s) (hstep : p.step s a = some s') :
    p.Inv s' ∧ p.rank s' + 1 = p.rank s + if a = .createFails then 1 else 0 := by
  cases a with
  | thread k => exact h.threadStep hstep
  | main => exact h.mainStep hstep
  | createFails =>
      simp only [Problem.step] at hstep
      split at hstep
      · split at hstep
        · obtain rfl := Option.some.inj hstep
          exact ⟨h, rfl⟩
        · cases hstep
      · cases hstep

/-- What holds after a run, and how long it is. -/
theorem inv_of_run {labels : List Action} (hrun : p.machine.run started labels = some s) :
    p.Inv s ∧ labels.length + p.rank s =
      p.target + 4 * p.numThreads + 3 + labels.countP (· = .createFails) := by
  have hgo : ∀ s₀, p.Inv s₀ → p.machine.run s₀ labels = some s →
      p.Inv s ∧ labels.length + p.rank s = p.rank s₀ + labels.countP (· = .createFails) := by
    clear hrun
    induction labels with
    | nil =>
        intro s₀ h₀ hrun
        obtain rfl := Option.some.inj hrun
        exact ⟨h₀, by simp⟩
    | cons a rest ih =>
        intro s₀ h₀ hrun
        obtain ⟨s₁, hstep, hrest⟩ := Machine.exists_step_of_run_cons hrun
        obtain ⟨h₁, hrank⟩ := h₀.step hstep
        obtain ⟨h, hlength⟩ := ih s₁ h₁ hrest
        refine ⟨h, ?_⟩
        rw [List.length_cons, List.countP_cons]
        simp only [decide_eq_true_eq]
        omega
  rw [← rank_started]
  exact hgo started inv_started hrun

/-- Before the results are shown somebody can take a step. -/
theorem Inv.exists_step (h : p.Inv s) (hmore : ∀ total_sum, s.main ≠ .done total_sum) :
    ∃ a s', a ≠ .createFails ∧ p.step s a = some s' := by
  have hmain := h.main
  have hthread : ∀ i, s.threads.length = p.numThreads → i < p.numThreads →
      ∃ t, s.threads[i]? = some t := fun i hlength hi =>
    ⟨_, List.getElem?_eq_getElem (by rwa [hlength])⟩
  cases hm : s.main with
  | create i =>
      by_cases hi : i < p.numThreads
      · exact ⟨.main, { main := .create (i + 1), threads := s.threads ++ [p.threadData i] }, nofun,
          by simp only [Problem.step, Problem.mainStep, hm, if_pos hi]⟩
      · exact ⟨.main, { s with main := .join 0 }, nofun,
          by simp only [Problem.step, Problem.mainStep, hm, if_neg hi]⟩
  | join i =>
      rw [hm] at hmain
      by_cases hi : i < p.numThreads
      · obtain ⟨t, ht⟩ := hthread i hmain.1 hi
        cases hphase : t.phase with
        | summing j sum =>
            -- the thread that `main` waits for goes on
            obtain ⟨t', ht'⟩ : ∃ t', p.threadStep t = some t' := by
              simp only [Problem.threadStep, hphase]
              split
              · exact ⟨_, rfl⟩
              · exact ⟨_, rfl⟩
            exact ⟨.thread i, { s with threads := s.threads.set i t' }, nofun,
              by simp only [Problem.step, ht, ht', Option.map_some]⟩
        | returned =>
            exact ⟨.main, { s with main := .join (i + 1) }, nofun,
              by simp only [Problem.step, Problem.mainStep, hm, ht, hphase, if_pos hi, if_true]⟩
      · exact ⟨.main, { s with main := .showResults 0 0 }, nofun,
          by simp only [Problem.step, Problem.mainStep, hm, if_neg hi]⟩
  | showResults i total_sum =>
      rw [hm] at hmain
      by_cases hi : i < p.numThreads
      · obtain ⟨t, ht⟩ := hthread i hmain.1 hi
        exact ⟨.main, _, nofun, by
          simp only [Problem.step, Problem.mainStep, hm, ht, if_pos hi]
          rfl⟩
      · exact ⟨.main, { s with main := .done total_sum }, nofun,
          by simp only [Problem.step, Problem.mainStep, hm, if_neg hi]⟩
  | done total_sum => exact absurd hm (hmore total_sum)

/-! ## The sum -/

/-- The loop of one thread alone. -/
theorem simpleLoop_eq (a n : Nat) :
    simpleLoop p.target (List.range' (a + 1) n) (p.rangeSum 0 a % 2 ^ 64) =
      p.rangeSum 0 (a + n) % 2 ^ 64 := by
  induction n generalizing a with
  | zero => rfl
  | succ n ih =>
      have hnext := ih (a + 1)
      rw [rangeSum_succ (Nat.zero_le _), term, Nat.add_assoc a 1 n, Nat.add_comm 1 n] at hnext
      rw [List.range'_succ, simpleLoop, ← hnext]
      congr 1
      split
      · rw [Nat.mod_add_mod]
      · rw [Nat.add_zero]

/-- **The threads find what one loop finds**: under every schedule, and however often a thread
cannot be made at first, the program comes to its end within so many steps, and the sum that it
shows is that of `SimpleSumDivisors`, which is the sum of all divisors. -/
theorem sum_of_divisors {labels : List Action}
    (hrun : p.machine.run started labels = some s) :
    labels.length ≤ p.target + 4 * p.numThreads + 3 + labels.countP (· = .createFails) ∧
      ((∀ a, a ≠ .createFails → p.step s a = none) → s.main = .done p.simpleSumDivisors) ∧
      p.simpleSumDivisors = (∑ d ∈ p.target.divisors, d) % 2 ^ 64 := by
  obtain ⟨hinv, hlength⟩ := inv_of_run hrun
  have hsimple : p.simpleSumDivisors = (∑ d ∈ p.target.divisors, d) % 2 ^ 64 := by
    have hloop := simpleLoop_eq (p := p) 0 p.target
    rw [rangeSum_self, Nat.zero_add, Nat.zero_add, rangeSum_all] at hloop
    exact hloop
  refine ⟨by omega, fun hstuck => ?_, hsimple⟩
  by_contra hmore
  have hmain := hinv.main
  obtain ⟨a, s', ha, hstep⟩ := hinv.exists_step fun total_sum hdone => by
    rw [hdone] at hmain
    exact hmore (by rw [hdone, hsimple, hmain])
  rw [hstuck a ha] at hstep
  cases hstep

end Problem

/-- The divisors of 6 by two threads, the second of which is made at the second attempt. -/
theorem sum_of_divisors_six :
    ∃ s : State, s.main = .done 12 ∧ (∑ d ∈ Nat.divisors 6, d) % 2 ^ 64 = 12 := by
  let p : Problem := ⟨6, 2, by decide, by decide⟩
  have hrun : (p.machine.run Problem.started
      ([.main, .createFails, .main, .main] ++ [.thread 1, .thread 0, .thread 1, .thread 1,
        .thread 0, .thread 1, .thread 0, .thread 0] ++ List.replicate 6 .main)).map
          (fun s => s.main) = some (.done 12) := by
    decide
  obtain ⟨s, hs, hmain⟩ := Option.map_eq_some_iff.mp hrun
  have hsimple : p.simpleSumDivisors = 12 := by decide
  exact ⟨s, hmain, (Problem.sum_of_divisors hs).2.2.symm.trans hsimple⟩

end Divisors
end Sys
end InfinityLabs
