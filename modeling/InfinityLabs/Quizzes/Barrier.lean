import InfinityLabs.Lib.Crew

/-!
# The barrier

`quizzes/barrier.cpp`: threads that wait for each other under one mutex and one condition
variable.  The last of as many as `BarrierInit` was told wakes the others; the number of threads
that come is arbitrary.  `BarrierInit` is called once, before they start.
-/

namespace InfinityLabs
namespace Quizzes
namespace Barrier

open Lib

/-! ## The program -/

/-- The static variables. -/
structure Shared where
  monitor : Monitor
  s_threshold : Nat
  s_count : Nat
  deriving DecidableEq, Repr

/-- Where `BarrierLock` stands: before the lock, before the count, at the predicate of the wait,
in the wait, before the unlock, and returned. -/
inductive Thread where
  | lock
  | arrive
  | check
  | waiting
  | leave
  | released
  deriving DecidableEq, Repr

/-- The next step of a thread, or the end of a wait that nobody caused. -/
inductive Choice where
  | go
  | spurious
  deriving DecidableEq, Repr

/-- The wait ends by itself. -/
def Choice.isSpurious : Choice → Bool
  | .spurious => true
  | .go => false

/-- A step of the thread `i`; the `std::size_t` wraps around. -/
def act (i : Nat) : Choice → Shared → Thread → Option (Shared × Thread)
  | .go, s, .lock => (s.monitor.lock i).map fun monitor => ({ s with monitor }, .arrive)
  | .go, s, .arrive =>
      let s_count := (s.s_count + 1) % 2 ^ 64
      if s.s_threshold = s_count then
        some ({ s with s_count, monitor := s.monitor.broadcast }, .leave)
      else some ({ s with s_count }, .check)
  | .go, s, .check =>
      if s.s_threshold = s.s_count then some (s, .leave)
      else some ({ s with monitor := s.monitor.wait i }, .waiting)
  | .go, s, .waiting => (s.monitor.resume i).map fun monitor => ({ s with monitor }, .check)
  | .go, s, .leave => some ({ s with monitor := s.monitor.unlock }, .released)
  | .spurious, s, .waiting =>
      (s.monitor.spurious i).map fun monitor => ({ s with monitor }, .waiting)
  | _, _, _ => none

/-- The state after `BarrierInit`, with the threads about to call `BarrierLock`. -/
def initial (totalThreadsInSystem numThreads : Nat) : Crew Shared Thread where
  shared := { monitor := .free, s_threshold := totalThreadsInSystem, s_count := 0 }
  threads := List.replicate numThreads .lock

/-- The program. -/
def machine (totalThreadsInSystem numThreads : Nat) :
    Machine (Crew Shared Thread) (Nat × Choice) :=
  Crew.machine (· = initial totalThreadsInSystem numThreads) act

/-! ## What a step does -/

/-- The steps of `act`, one constructor for each. -/
inductive Step (i : Nat) (s : Shared) : Choice → Thread → Shared → Thread → Prop
  | lock (hfree : s.monitor.owner = none) :
      Step i s .go .lock { s with monitor := { s.monitor with owner := some i } } .arrive
  | last (hlast : s.s_threshold = (s.s_count + 1) % 2 ^ 64) :
      Step i s .go .arrive
        { s with s_count := (s.s_count + 1) % 2 ^ 64, monitor := s.monitor.broadcast } .leave
  | arrive (hlast : s.s_threshold ≠ (s.s_count + 1) % 2 ^ 64) :
      Step i s .go .arrive { s with s_count := (s.s_count + 1) % 2 ^ 64 } .check
  | pass (hall : s.s_threshold = s.s_count) : Step i s .go .check s .leave
  | wait (hnot : s.s_threshold ≠ s.s_count) :
      Step i s .go .check { s with monitor := s.monitor.wait i } .waiting
  | resume (hwoken : i ∉ s.monitor.waiting) (hfree : s.monitor.owner = none) :
      Step i s .go .waiting { s with monitor := { s.monitor with owner := some i } } .check
  | unlock : Step i s .go .leave { s with monitor := s.monitor.unlock } .released
  | spurious (hwaiting : i ∈ s.monitor.waiting) :
      Step i s .spurious .waiting
        { s with monitor := { s.monitor with waiting := s.monitor.waiting.erase i } } .waiting

variable {i : Nat} {a : Choice} {s s' : Shared} {p p' : Thread}

/-- There are no other steps. -/
theorem step_of_act (hact : act i a s p = some (s', p')) : Step i s a p s' p' := by
  unfold act at hact
  split at hact
  · obtain ⟨monitor, hlock, heq⟩ := Option.map_eq_some_iff.mp hact
    obtain ⟨hfree, rfl⟩ := Monitor.lock_eq_some_iff.mp hlock
    cases heq
    exact .lock hfree
  · simp only at hact
    split at hact
    case isTrue hlast => cases hact; exact .last hlast
    case isFalse hlast => cases hact; exact .arrive hlast
  · split at hact
    case isTrue hall => cases hact; exact .pass hall
    case isFalse hnot => cases hact; exact .wait hnot
  · obtain ⟨monitor, hresume, heq⟩ := Option.map_eq_some_iff.mp hact
    obtain ⟨hwoken, hfree, rfl⟩ := Monitor.resume_eq_some_iff.mp hresume
    cases heq
    exact .resume hwoken hfree
  · cases hact
    exact .unlock
  · obtain ⟨monitor, hspurious, heq⟩ := Option.map_eq_some_iff.mp hact
    obtain ⟨hwaiting, rfl⟩ := Monitor.spurious_eq_some_iff.mp hspurious
    cases heq
    exact .spurious hwaiting
  · cases hact

/-! ## What every run keeps -/

/-- The thread stands in a section under the mutex. -/
def Thread.holds : Thread → Bool
  | .arrive | .check | .leave => true
  | _ => false

/-- The thread stands in the wait. -/
def Thread.waits : Thread → Bool
  | .waiting => true
  | _ => false

/-- The thread has been counted. -/
def Thread.arrived : Thread → Nat
  | .lock | .arrive => 0
  | _ => 1

/-- The thread has passed the barrier. -/
def Thread.passed : Thread → Nat
  | .leave | .released => 1
  | _ => 0

/-- Each step locks and unlocks as it enters and leaves a section. -/
theorem disciplined : Crew.Disciplined (fun s : Shared => s.monitor.owner) Thread.holds act := by
  intro i a s p s' p' hact
  cases step_of_act hact <;>
    simp_all [Thread.holds, Monitor.unlock, Monitor.wait, Monitor.broadcast]

/-- Nobody is put to sleep but by its own step, and nobody leaves the wait asleep. -/
theorem watchful : Crew.Watchful Shared.monitor Thread.waits act := by
  intro i a s p s' p' hact hnodup hwaits
  cases step_of_act hact with
  | last hlast =>
      exact ⟨List.nodup_nil, fun hi => absurd hi List.not_mem_nil,
        fun j hj => absurd hj List.not_mem_nil⟩
  | spurious hwaiting =>
      exact ⟨hnodup.erase _, fun _ => rfl, fun j hj _ => List.mem_of_mem_erase hj⟩
  | wait hnot =>
      have hi : i ∉ s.monitor.waiting := fun hi => absurd (hwaits hi) Bool.false_ne_true
      refine ⟨List.nodup_cons.mpr ⟨hi, hnodup⟩, fun _ => rfl, fun j hj hne => ?_⟩
      exact (List.mem_cons.mp hj).resolve_left hne
  | resume hwoken hfree => exact ⟨hnodup, fun hi => absurd hi hwoken, fun j hj _ => hj⟩
  | _ => exact ⟨hnodup, fun hi => absurd (hwaits hi) Bool.false_ne_true, fun j hj _ => hj⟩

/-- The state of the barrier for `n` threads, of which `m` come: the count is that of the
arrivals, some thread and at most `n` have passed where the count has reached `n` and none where
it has not, and nobody sleeps where the count is `n`. -/
structure Inv (n m : Nat) (c : Crew Shared Thread) : Prop where
  exclusive : c.Exclusive (fun s => s.monitor.owner) Thread.holds
  sleeping : c.Sleeping Shared.monitor Thread.waits
  threshold : c.shared.s_threshold = n
  length : c.threads.length = m
  count : c.shared.s_count = c.total Thread.arrived
  none_before : c.shared.s_count < n → c.total Thread.passed = 0
  some_after : 0 < n → n ≤ c.shared.s_count → 0 < c.total Thread.passed
  passed_le : c.total Thread.passed ≤ n
  awake : c.shared.s_count = n → c.shared.monitor.waiting = []

variable {n m : Nat} {c c' : Crew Shared Thread}

/-- No more threads pass than have arrived, and no more arrive than there are. -/
theorem total_passed_le : c.total Thread.passed ≤ c.total Thread.arrived ∧
    c.total Thread.arrived ≤ c.threads.length := by
  simp only [Crew.total]
  induction c.threads with
  | nil => exact ⟨Nat.le_refl _, Nat.le_refl _⟩
  | cons p threads ih =>
      simp only [List.map_cons, List.sum_cons, List.length_cons]
      have hp : p.passed ≤ p.arrived ∧ p.arrived ≤ 1 := by cases p <;> decide
      omega

namespace Inv

/-- The count before a further arrival does not wrap around. -/
theorem count_lt (hm : m < 2 ^ 64) (h : Inv n m c) (hget : c.threads[i]? = some .arrive) :
    (c.shared.s_count + 1) % 2 ^ 64 = c.shared.s_count + 1 := by
  have hset := Crew.total_set Thread.arrived .check c.shared hget
  have hle := (total_passed_le (c := { c with threads := c.threads.set i .check })).2
  have hcount := h.count
  have hlength := h.length
  simp only [List.length_set, Thread.arrived] at hle hset
  exact Nat.mod_eq_of_lt (by omega)

/-- The arrivals and those that have passed, over a step. -/
theorem counts_step (hm : m < 2 ^ 64) (h : Inv n m c)
    (hstep : (machine n m).step c (i, a) = some c') :
    c'.shared.s_count = c'.total Thread.arrived ∧
      (c'.shared.s_count < n → c'.total Thread.passed = 0) ∧
      (0 < n → n ≤ c'.shared.s_count → 0 < c'.total Thread.passed) ∧
      c'.total Thread.passed ≤ n := by
  obtain ⟨p, s', p', hget, hact, rfl⟩ := Crew.step_eq_some_iff.mp hstep
  have harrived := Crew.total_set Thread.arrived p' s' hget
  have hpassed := Crew.total_set Thread.passed p' s' hget
  have hle := (total_passed_le (c := { shared := s', threads := c.threads.set i p' })).1
  have hcount := h.count
  have hthreshold := h.threshold
  have hbefore := h.none_before
  have hafter := h.some_after
  have hatMost := h.passed_le
  cases step_of_act hact with
  | last hlast =>
      have hwrap := h.count_lt hm hget
      simp only [hwrap, Thread.arrived, Thread.passed] at *
      omega
  | arrive hlast =>
      have hwrap := h.count_lt hm hget
      simp only [hwrap, Thread.arrived, Thread.passed] at *
      omega
  | _ =>
      simp only [Thread.arrived, Thread.passed] at *
      omega

/-- Nobody sleeps where all have arrived. -/
theorem awake_step (h : Inv n m c)
    (hstep : (machine n m).step c (i, a) = some c') :
    c'.shared.s_count = n → c'.shared.monitor.waiting = [] := by
  obtain ⟨p, s', p', hget, hact, rfl⟩ := Crew.step_eq_some_iff.mp hstep
  intro hall
  cases step_of_act hact with
  | last hlast => rfl
  | arrive hlast => exact absurd (h.threshold.trans hall.symm) hlast
  | wait hnot => exact absurd (h.threshold.trans hall.symm) hnot
  | spurious hwaiting =>
      have hnone := h.awake hall
      rw [hnone] at hwaiting
      cases hwaiting
  | _ => exact h.awake hall

/-- A step keeps it all. -/
theorem step (hm : m < 2 ^ 64) (h : Inv n m c) (hstep : (machine n m).step c (i, a) = some c') :
    Inv n m c' := by
  obtain ⟨hcount, hbefore, hafter, hatMost⟩ := h.counts_step hm hstep
  refine ⟨h.exclusive.step disciplined hstep, h.sleeping.step watchful hstep, ?_,
    (Crew.length_of_step hstep).trans h.length, hcount, hbefore, hafter, hatMost,
    h.awake_step hstep⟩
  obtain ⟨p, s', p', -, hact, rfl⟩ := Crew.step_eq_some_iff.mp hstep
  cases step_of_act hact <;> exact h.threshold

/-- At the start nobody has arrived. -/
theorem start : Inv n m (initial n m) := by
  have hmem : ∀ (i : Nat) (p : Thread), (initial n m).threads[i]? = some p → p = .lock :=
    fun i p hget => (List.mem_replicate.mp (List.mem_of_getElem? hget)).2
  refine ⟨⟨?_, ?_⟩, ⟨?_, ?_⟩, rfl, ?_, ?_, ?_, ?_, ?_, ?_⟩
  · intro i p hget
    rw [hmem i p hget]
    simp [initial, Thread.holds, Monitor.free]
  · simp [initial, Monitor.free]
  · simp [initial, Monitor.free]
  · simp [initial, Monitor.free]
  · simp [initial]
  · simp [initial, Crew.total, Thread.arrived]
  · simp [initial, Crew.total, Thread.passed]
  · intro hpos hle
    exact absurd hpos (Nat.not_lt.mpr hle)
  · simp [initial, Crew.total, Thread.passed]
  · simp [initial, Monitor.free]

end Inv

/-- Every run keeps the invariant. -/
theorem inv_of_reached (hm : m < 2 ^ 64) (h : (machine n m).Reached c) : Inv n m c :=
  Machine.ReachedBy.invariant (fun _ hstart => hstart ▸ Inv.start) (fun _ _ _ h _ => h.step hm) h

/-! ## The results -/

/-- Nobody passes the barrier before as many threads as it is for have arrived, and no more than
those ever pass it. -/
theorem passes_together (hm : m < 2 ^ 64) (h : (machine n m).Reached c) :
    (∀ p ∈ c.threads, p.passed = 1 → n ≤ c.total Thread.arrived) ∧
      c.total Thread.passed ≤ n := by
  have hinv := inv_of_reached hm h
  refine ⟨fun p hp hpassed => ?_, hinv.passed_le⟩
  by_contra hlt
  have hcount := hinv.count
  have hzero := hinv.none_before (by omega)
  obtain ⟨i, hget⟩ := List.getElem?_of_mem hp
  have hle := Crew.le_total Thread.passed hget
  omega

/-- A thread that comes alone to a barrier for two does not pass it. -/
theorem passes_together_alone : ∃ c,
    (machine 2 1).run (initial 2 1) [(0, .go), (0, .go), (0, .go), (0, .spurious), (0, .go)] =
        some c ∧
      (∀ p ∈ c.threads, p.passed = 1 → 2 ≤ c.total Thread.arrived) ∧
        c.total Thread.passed ≤ 2 := by
  have hrun : (machine 2 1).run (initial 2 1)
      [(0, .go), (0, .go), (0, .go), (0, .spurious), (0, .go)] =
      some ⟨⟨⟨some 0, []⟩, 2, 1⟩, [.check]⟩ := rfl
  exact ⟨_, hrun, passes_together (by decide) (Machine.Reached.run (.start rfl) hrun)⟩

/-- How many steps a thread has before it, unless it waits. -/
def Thread.weight : Thread → Nat
  | .lock => 5
  | .arrive => 4
  | .check => 2
  | .waiting => 3
  | .leave => 1
  | .released => 0

/-- How many steps the threads have before them at most: those that sleep have none until they
are woken, which happens once. -/
def rank (n m : Nat) (c : Crew Shared Thread) : Nat :=
  c.total Thread.weight + (if c.shared.s_count < n then 3 * m else 0) -
    3 * c.shared.monitor.waiting.length

/-- The threads in the wait count for those that sleep. -/
theorem Inv.le_total_weight (h : Inv n m c) :
    3 * c.shared.monitor.waiting.length ≤ c.total Thread.weight ∧
      c.shared.monitor.waiting.length ≤ m := by
  have hlength : c.shared.monitor.waiting.length ≤ c.threads.countP Thread.waits :=
    h.sleeping.length_le
  have hle : c.threads.countP Thread.waits ≤ m := h.length ▸ List.countP_le_length
  refine ⟨?_, Nat.le_trans hlength hle⟩
  suffices hcount : 3 * c.threads.countP Thread.waits ≤ c.total Thread.weight by omega
  simp only [Crew.total]
  induction c.threads with
  | nil => exact Nat.le_refl 0
  | cons p threads ih =>
      rw [List.countP_cons, List.map_cons, List.sum_cons, Nat.mul_add]
      have hp : (3 * if p.waits = true then 1 else 0) ≤ p.weight := by cases p <;> decide
      omega

/-- Every step takes from the rank, but for a wait that ends by itself. -/
theorem Inv.rank_step (hm : m < 2 ^ 64) (h : Inv n m c)
    (hstep : (machine n m).step c (i, a) = some c') :
    rank n m c' + 1 ≤ rank n m c + if a.isSpurious then 4 else 0 := by
  have hbefore := h.le_total_weight
  have hafter := (h.step hm hstep).le_total_weight
  have hthreshold := h.threshold
  obtain ⟨p, s', p', hget, hact, rfl⟩ := Crew.step_eq_some_iff.mp hstep
  have htotal := Crew.total_set Thread.weight p' s' hget
  unfold rank
  cases step_of_act hact with
  | last hlast =>
      have hwrap := h.count_lt hm hget
      simp only [hwrap, Thread.weight, Choice.isSpurious, Monitor.broadcast, List.length_nil,
        Bool.false_eq_true, if_false] at *
      rw [if_neg (by omega), if_pos (by omega)]
      omega
  | arrive hlast =>
      have hwrap := h.count_lt hm hget
      simp only [hwrap, Thread.weight, Choice.isSpurious, Bool.false_eq_true, if_false] at *
      by_cases hlt : c.shared.s_count < n
      · rw [if_pos hlt, if_pos (by omega)]
        omega
      · rw [if_neg hlt, if_neg (by omega)]
        omega
  | spurious hwaiting =>
      have hlength := List.length_erase_of_mem hwaiting
      have hpos := List.length_pos_of_mem hwaiting
      simp only [hlength, Thread.weight, Choice.isSpurious, if_true] at *
      omega
  | wait hnot =>
      simp only [Thread.weight, Choice.isSpurious, Monitor.wait, List.length_cons,
        Bool.false_eq_true, if_false] at *
      omega
  | _ =>
      simp only [Thread.weight, Choice.isSpurious, Monitor.unlock, Bool.false_eq_true,
        if_false] at *
      omega

/-- Where no thread can go on, unless a wait ends by itself, each has passed or sleeps. -/
theorem of_stuck (hm : m < 2 ^ 64) (h : (machine n m).Reached c)
    (hstuck : Crew.Stuck act (fun a => a.isSpurious = false) c) (hget : c.threads[i]? = some p) :
    p = .released ∨ p = .waiting ∧ i ∈ c.shared.monitor.waiting := by
  have hinv := inv_of_reached hm h
  -- A thread in a section can go on, so the mutex is free.
  have hfree : c.shared.monitor.owner = none := by
    cases howner : c.shared.monitor.owner with
    | none => rfl
    | some i =>
        obtain ⟨p, hget, hholds⟩ := hinv.exclusive.exists_holder howner
        have hnone := hstuck i .go _ hget rfl
        exfalso
        cases p with
        | arrive =>
            simp only [act] at hnone
            split at hnone <;> cases hnone
        | check =>
            simp only [act] at hnone
            split at hnone <;> cases hnone
        | leave => cases hnone
        | _ => cases hholds
  have hnone := hstuck i .go _ hget rfl
  cases p with
  | released => exact Or.inl rfl
  | waiting =>
      refine Or.inr ⟨rfl, ?_⟩
      by_contra hwoken
      simp [act, Monitor.resume, Monitor.lock, hwoken, hfree] at hnone
  | lock => simp [act, Monitor.lock, hfree] at hnone
  | leave => cases hnone
  | _ =>
      cases hinv.exclusive.holds_eq_false hfree hget

/-- A run has at most eight steps for each thread, and four more for every wait that ends by
itself.  Where no thread can go on, all have arrived; all of them are released where as many came
as the barrier is for, none where fewer came, and where more came some but no more than the
barrier is for, while the others sleep. -/
theorem release_of_stuck (hn : 0 < n) (hm : m < 2 ^ 64) {labels : List (Nat × Choice)}
    (hrun : (machine n m).run (initial n m) labels = some c) :
    labels.length ≤ 8 * m + 4 * labels.countP (fun a => a.2.isSpurious) ∧
      (Crew.Stuck act (fun a => a.isSpurious = false) c →
        c.shared.s_count = m ∧
        (∀ i p, c.threads[i]? = some p → p = .released ∨
          p = .waiting ∧ i ∈ c.shared.monitor.waiting) ∧
        (m = n → ∀ p ∈ c.threads, p = .released) ∧
        (m < n → ∀ p ∈ c.threads, p = .waiting) ∧
        (n < m → 0 < c.total Thread.passed ∧ c.total Thread.passed ≤ n)) := by
  have hreached : (machine n m).Reached c := Machine.Reached.run (.start rfl) hrun
  have hinv := inv_of_reached hm hreached
  constructor
  · have hrank := Crew.length_le_of_rank (I := Inv n m) (rank n m)
      (fun a : Nat × Choice => a.2.isSpurious) 4 (fun _ _ _ h hstep => h.step hm hstep)
      (fun _ _ _ h hstep => h.rank_step hm hstep) Inv.start hrun
    have hfirst : rank n m (initial n m) = 8 * m := by
      have hbefore : (initial n m).shared.s_count < n := hn
      rw [rank, if_pos hbefore]
      simp only [Crew.total, initial, Monitor.free, List.map_replicate, List.sum_replicate_nat,
        Thread.weight, List.length_nil]
      omega
    omega
  · intro hstuck
    have hall := fun i p => @of_stuck i p _ _ _ hm hreached hstuck
    have hone : ∀ p ∈ c.threads, p = .released ∨ p = .waiting := by
      intro p hp
      obtain ⟨i, hget⟩ := List.getElem?_of_mem hp
      exact (hall i p hget).imp id And.left
    have harrived : c.total Thread.arrived = m := by
      have hsum : c.threads.map Thread.arrived = List.replicate c.threads.length 1 := by
        refine List.eq_replicate_iff.mpr ⟨List.length_map .., fun held hmem => ?_⟩
        obtain ⟨p, hp, rfl⟩ := List.mem_map.mp hmem
        rcases hone p hp with rfl | rfl <;> rfl
      rw [Crew.total, hsum, List.sum_replicate_nat, Nat.mul_one, hinv.length]
    have hcount : c.shared.s_count = m := hinv.count.trans harrived
    refine ⟨hcount, hall, fun hsame p hp => ?_, fun hless p hp => ?_, fun hmore => ?_⟩
    · obtain ⟨i, hget⟩ := List.getElem?_of_mem hp
      rcases hall i p hget with rfl | ⟨-, hi⟩
      · rfl
      · rw [hinv.awake (hcount.trans hsame)] at hi
        cases hi
    · rcases hone p hp with rfl | rfl
      · obtain ⟨i, hget⟩ := List.getElem?_of_mem hp
        have hle := Crew.le_total Thread.passed hget
        rw [hinv.none_before (hcount ▸ hless)] at hle
        cases hle
      · rfl
    · exact ⟨hinv.some_after hn (by omega), hinv.passed_le⟩

/-- Two threads meet: the first one sleeps until the second one arrives. -/
def meeting : List (Nat × Choice) :=
  [(0, .go), (0, .go), (0, .go), (1, .go), (1, .go), (1, .go), (0, .go), (0, .go), (0, .go)]

/-- Both are released. -/
theorem release_of_stuck_two : ∃ c, (machine 2 2).run (initial 2 2) meeting = some c ∧
    c.shared.s_count = 2 ∧ ∀ p ∈ c.threads, p = .released := by
  have hrun : (machine 2 2).run (initial 2 2) meeting =
      some ⟨⟨.free, 2, 2⟩, [.released, .released]⟩ := rfl
  have hresult := (release_of_stuck (by decide) (by decide) hrun).2 fun i a p hget _ => ?_
  · exact ⟨_, hrun, hresult.1, hresult.2.2.1 rfl⟩
  · have hp := List.mem_of_getElem? hget
    simp only [List.mem_cons, List.not_mem_nil, or_false, or_self] at hp
    subst hp
    cases a <;> rfl

end Barrier
end Quizzes
end InfinityLabs
