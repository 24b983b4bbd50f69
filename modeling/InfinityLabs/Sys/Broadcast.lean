import InfinityLabs.Lib.Crew

/-!
# One message for all consumers

`producer_consumer/ex6.c`: one producer writes a message and wakes all consumers; it then
waits, on a semaphore, for as many of them as there are to say that they have read it.  The
number of the consumers, whose threads come first, is arbitrary.
-/

namespace InfinityLabs
namespace Sys
namespace Ex6

open Lib

/-! ## The program -/

/-- `MAX_VALUE`. -/
def MAX_VALUE : Nat := 100

/-- The globals, and what the consumers have printed, the newest last. -/
structure Shared where
  monitor : Monitor
  done_sem : Nat
  g_message : Nat
  g_ready : Nat
  printed : List (Nat × Nat)
  deriving DecidableEq, Repr

/-- Where the producer stands, in its last loop with its counter. -/
inductive Producer where
  | lock
  | write
  | broadcast
  | unlock
  | semWait (i : Nat)
  | returned
  deriving DecidableEq, Repr

/-- Where a consumer stands: before the lock, at the predicate of the wait, in the wait, before
the print with its post, before the unlock, and returned. -/
inductive Consumer where
  | lock
  | check
  | waiting
  | print
  | unlock
  | returned
  deriving DecidableEq, Repr

/-- A thread of the program. -/
inductive Thread where
  | producer (at_ : Producer)
  | consumer (at_ : Consumer)
  deriving DecidableEq, Repr

/-- The next step of a thread, for the write with the value of `rand`, or the end of a wait that
nobody caused. -/
inductive Choice where
  | go
  | rand (r : Nat)
  | spurious
  deriving DecidableEq, Repr

/-- The wait ends by itself. -/
def Choice.isSpurious : Choice → Bool
  | .spurious => true
  | _ => false

/-- A step of `ProducerMsg`. -/
def producerMsg (numConsumers i : Nat) : Choice → Shared → Producer → Option (Shared × Producer)
  | .go, s, .lock => (s.monitor.lock i).map fun monitor => ({ s with monitor }, .write)
  | .rand r, s, .write => some ({ s with g_message := r % MAX_VALUE, g_ready := 1 }, .broadcast)
  | .go, s, .broadcast => some ({ s with monitor := s.monitor.broadcast }, .unlock)
  | .go, s, .unlock => some ({ s with monitor := s.monitor.unlock }, .semWait 0)
  | .go, s, .semWait k =>
      if k < numConsumers then
        if 0 < s.done_sem then some ({ s with done_sem := s.done_sem - 1 }, .semWait (k + 1))
        else none
      else some (s, .returned)
  | _, _, _ => none

/-- A step of `ConsumerMsg`. -/
def consumerMsg (i : Nat) : Choice → Shared → Consumer → Option (Shared × Consumer)
  | .go, s, .lock => (s.monitor.lock i).map fun monitor => ({ s with monitor }, .check)
  | .go, s, .check =>
      if s.g_ready = 0 then some ({ s with monitor := s.monitor.wait i }, .waiting)
      else some (s, .print)
  | .go, s, .waiting => (s.monitor.resume i).map fun monitor => ({ s with monitor }, .check)
  | .spurious, s, .waiting =>
      (s.monitor.spurious i).map fun monitor => ({ s with monitor }, .waiting)
  | .go, s, .print =>
      some ({ s with printed := s.printed ++ [(i, s.g_message)], done_sem := s.done_sem + 1 },
        .unlock)
  | .go, s, .unlock => some ({ s with monitor := s.monitor.unlock }, .returned)
  | _, _, _ => none

/-- A step of the thread `i`. -/
def act (numConsumers i : Nat) (a : Choice) (s : Shared) : Thread → Option (Shared × Thread)
  | .producer p => (producerMsg numConsumers i a s p).map fun (s, p) => (s, .producer p)
  | .consumer p => (consumerMsg i a s p).map fun (s, p) => (s, .consumer p)

/-- The state in which `CreateThreads` has created the threads. -/
def initial (numConsumers : Nat) : Crew Shared Thread where
  shared :=
    { monitor := .free, done_sem := 0, g_message := 0, g_ready := 0, printed := [] }
  threads := List.replicate numConsumers (.consumer .lock) ++ [.producer .lock]

/-- The program. -/
def machine (numConsumers : Nat) : Machine (Crew Shared Thread) (Nat × Choice) :=
  Crew.machine (· = initial numConsumers) (act numConsumers)

/-! ## What a step does -/

/-- The steps of `act`, one constructor for each. -/
inductive Step (n i : Nat) (s : Shared) : Choice → Thread → Shared → Thread → Prop
  | lockProducer (hfree : s.monitor.owner = none) :
      Step n i s .go (.producer .lock) { s with monitor := { s.monitor with owner := some i } }
        (.producer .write)
  | write (r : Nat) :
      Step n i s (.rand r) (.producer .write)
        { s with g_message := r % MAX_VALUE, g_ready := 1 } (.producer .broadcast)
  | broadcast :
      Step n i s .go (.producer .broadcast) { s with monitor := s.monitor.broadcast }
        (.producer .unlock)
  | unlockProducer :
      Step n i s .go (.producer .unlock) { s with monitor := s.monitor.unlock }
        (.producer (.semWait 0))
  | semWait (k : Nat) (hk : k < n) (hpos : 0 < s.done_sem) :
      Step n i s .go (.producer (.semWait k)) { s with done_sem := s.done_sem - 1 }
        (.producer (.semWait (k + 1)))
  | returnProducer (k : Nat) (hk : ¬ k < n) :
      Step n i s .go (.producer (.semWait k)) s (.producer .returned)
  | lock (hfree : s.monitor.owner = none) :
      Step n i s .go (.consumer .lock) { s with monitor := { s.monitor with owner := some i } }
        (.consumer .check)
  | wait (hready : s.g_ready = 0) :
      Step n i s .go (.consumer .check) { s with monitor := s.monitor.wait i }
        (.consumer .waiting)
  | pass (hready : s.g_ready ≠ 0) :
      Step n i s .go (.consumer .check) s (.consumer .print)
  | resume (hwoken : i ∉ s.monitor.waiting) (hfree : s.monitor.owner = none) :
      Step n i s .go (.consumer .waiting)
        { s with monitor := { s.monitor with owner := some i } } (.consumer .check)
  | spurious (hwaiting : i ∈ s.monitor.waiting) :
      Step n i s .spurious (.consumer .waiting)
        { s with monitor := { s.monitor with waiting := s.monitor.waiting.erase i } }
        (.consumer .waiting)
  | print :
      Step n i s .go (.consumer .print)
        { s with printed := s.printed ++ [(i, s.g_message)], done_sem := s.done_sem + 1 }
        (.consumer .unlock)
  | unlock :
      Step n i s .go (.consumer .unlock) { s with monitor := s.monitor.unlock }
        (.consumer .returned)

variable {n i : Nat} {a : Choice} {s s' : Shared} {p p' : Thread}

theorem step_of_producerMsg {q q' : Producer} (hact : producerMsg n i a s q = some (s', q')) :
    Step n i s a (.producer q) s' (.producer q') := by
  unfold producerMsg at hact
  split at hact
  · obtain ⟨monitor, hlock, heq⟩ := Option.map_eq_some_iff.mp hact
    obtain ⟨hfree, rfl⟩ := Monitor.lock_eq_some_iff.mp hlock
    cases heq
    exact .lockProducer hfree
  · cases hact
    exact .write _
  · cases hact
    exact .broadcast
  · cases hact
    exact .unlockProducer
  · split at hact
    case isTrue hk =>
      split at hact
      case isTrue hpos =>
        cases hact
        exact .semWait _ hk hpos
      case isFalse => cases hact
    case isFalse hk =>
      cases hact
      exact .returnProducer _ hk
  · cases hact

theorem step_of_consumerMsg {q q' : Consumer} (hact : consumerMsg i a s q = some (s', q')) :
    Step n i s a (.consumer q) s' (.consumer q') := by
  unfold consumerMsg at hact
  split at hact
  · obtain ⟨monitor, hlock, heq⟩ := Option.map_eq_some_iff.mp hact
    obtain ⟨hfree, rfl⟩ := Monitor.lock_eq_some_iff.mp hlock
    cases heq
    exact .lock hfree
  · split at hact
    case isTrue hready => cases hact; exact .wait hready
    case isFalse hready => cases hact; exact .pass hready
  · obtain ⟨monitor, hresume, heq⟩ := Option.map_eq_some_iff.mp hact
    obtain ⟨hwoken, hfree, rfl⟩ := Monitor.resume_eq_some_iff.mp hresume
    cases heq
    exact .resume hwoken hfree
  · obtain ⟨monitor, hspurious, heq⟩ := Option.map_eq_some_iff.mp hact
    obtain ⟨hwaiting, rfl⟩ := Monitor.spurious_eq_some_iff.mp hspurious
    cases heq
    exact .spurious hwaiting
  · cases hact
    exact .print
  · cases hact
    exact .unlock
  · cases hact

/-- There are no other steps. -/
theorem step_of_act (hact : act n i a s p = some (s', p')) : Step n i s a p s' p' := by
  cases p with
  | producer q =>
      obtain ⟨⟨t, q'⟩, hq, heq⟩ := Option.map_eq_some_iff.mp hact
      cases heq
      exact step_of_producerMsg hq
  | consumer q =>
      obtain ⟨⟨t, q'⟩, hq, heq⟩ := Option.map_eq_some_iff.mp hact
      cases heq
      exact step_of_consumerMsg hq

/-! ## What every run keeps -/

/-- The thread stands in a section under the mutex. -/
def Thread.holds : Thread → Bool
  | .producer .write | .producer .broadcast | .producer .unlock => true
  | .consumer .check | .consumer .print | .consumer .unlock => true
  | _ => false

/-- The thread stands in the wait. -/
def Thread.waits : Thread → Bool
  | .consumer .waiting => true
  | _ => false

/-- The posts that the thread has taken from the semaphore. -/
def Thread.taken (n : Nat) : Thread → Nat
  | .producer (.semWait k) => k
  | .producer .returned => n
  | _ => 0

/-- Each step locks and unlocks as it enters and leaves a section. -/
theorem disciplined :
    Crew.Disciplined (fun s : Shared => s.monitor.owner) Thread.holds (act n) := by
  intro i a s p s' p' hact
  cases step_of_act hact <;>
    simp_all [Thread.holds, Monitor.unlock, Monitor.wait, Monitor.broadcast]

/-- Nobody is put to sleep but by its own step, and nobody leaves the wait asleep. -/
theorem watchful : Crew.Watchful Shared.monitor Thread.waits (act n) := by
  intro i a s p s' p' hact hnodup hwaits
  cases step_of_act hact with
  | broadcast =>
      exact ⟨List.nodup_nil, fun hi => absurd hi List.not_mem_nil,
        fun j hj => absurd hj List.not_mem_nil⟩
  | spurious hwaiting =>
      exact ⟨hnodup.erase _, fun _ => rfl, fun j hj _ => List.mem_of_mem_erase hj⟩
  | wait hready =>
      have hi : i ∉ s.monitor.waiting := fun hi => absurd (hwaits hi) Bool.false_ne_true
      refine ⟨List.nodup_cons.mpr ⟨hi, hnodup⟩, fun _ => rfl, fun j hj hne => ?_⟩
      exact (List.mem_cons.mp hj).resolve_left hne
  | resume hwoken hfree => exact ⟨hnodup, fun hi => absurd hi hwoken, fun j hj _ => hj⟩
  | _ => exact ⟨hnodup, fun hi => absurd (hwaits hi) Bool.false_ne_true, fun j hj _ => hj⟩

/-- What a thread relies on.  The producer, which is the last thread, finds nothing printed and
nothing ready until it writes, and leaves nobody asleep; a consumer has printed exactly from its
print on, and finds the message ready there. -/
def Relies (n i : Nat) (s : Shared) : Thread → Prop
  | .producer .lock | .producer .write => i = n ∧ s.g_ready = 0 ∧ s.printed = []
  | .producer .broadcast => i = n ∧ s.g_ready = 1
  | .producer .unlock | .producer .returned => i = n ∧ s.g_ready = 1 ∧ s.monitor.waiting = []
  | .producer (.semWait k) =>
      i = n ∧ s.g_ready = 1 ∧ s.monitor.waiting = [] ∧ k ≤ n
  | .consumer .lock | .consumer .check | .consumer .waiting =>
      i < n ∧ i ∉ s.printed.map Prod.fst
  | .consumer .print => i < n ∧ i ∉ s.printed.map Prod.fst ∧ s.g_ready = 1
  | .consumer .unlock | .consumer .returned => i < n ∧ i ∈ s.printed.map Prod.fst

/-- The state of the program with `n` consumers: what is printed is the message, by each
consumer once at most, and every print posted once on the semaphore. -/
structure Inv (n : Nat) (c : Crew Shared Thread) : Prop where
  exclusive : c.Exclusive (fun s => s.monitor.owner) Thread.holds
  sleeping : c.Sleeping Shared.monitor Thread.waits
  length : c.threads.length = n + 1
  relies : c.Each (Relies n)
  ready : c.shared.g_ready ≤ 1
  nodup : (c.shared.printed.map Prod.fst).Nodup
  lt : ∀ e ∈ c.shared.printed, e.1 < n
  value : ∀ e ∈ c.shared.printed, e.2 = c.shared.g_message
  posts : c.shared.done_sem + c.total (Thread.taken n) = c.shared.printed.length

variable {c c' : Crew Shared Thread}

namespace Inv

/-- The thread of a step goes on to find what it relies on. -/
theorem relies_own (hready : s.g_ready ≤ 1) (h : Relies n i s p)
    (hact : act n i a s p = some (s', p')) : Relies n i s' p' := by
  cases step_of_act hact <;>
    simp_all [Relies, Monitor.broadcast, Monitor.unlock, Monitor.wait]
  all_goals omega

/-- The producer is the last thread. -/
theorem eq_of_relies {q : Producer} (h : Relies n i s (.producer q)) : i = n := by
  cases q <;> exact h.1

/-- What the producer relies on is about the message, the prints and the sleepers. -/
theorem relies_producer {q : Producer} (hq : Relies n i s (.producer q))
    (hready : s'.g_ready = s.g_ready) (hprinted : s.g_ready = 0 → s'.printed = s.printed)
    (hwaiting : s.g_ready = 1 → s.monitor.waiting = [] → s'.monitor.waiting = []) :
    Relies n i s' (.producer q) := by
  cases q with
  | lock => exact ⟨hq.1, hready.trans hq.2.1, (hprinted hq.2.1).trans hq.2.2⟩
  | write => exact ⟨hq.1, hready.trans hq.2.1, (hprinted hq.2.1).trans hq.2.2⟩
  | broadcast => exact ⟨hq.1, hready.trans hq.2⟩
  | unlock => exact ⟨hq.1, hready.trans hq.2.1, hwaiting hq.2.1 hq.2.2⟩
  | returned => exact ⟨hq.1, hready.trans hq.2.1, hwaiting hq.2.1 hq.2.2⟩
  | semWait k => exact ⟨hq.1, hready.trans hq.2.1, hwaiting hq.2.1 hq.2.2.1, hq.2.2.2⟩

/-- What a consumer relies on is about the message and its own print. -/
theorem relies_consumer {q : Consumer} (hq : Relies n i s (.consumer q))
    (hready : s.g_ready = 1 → s'.g_ready = 1)
    (hprinted : i ∈ s'.printed.map Prod.fst ↔ i ∈ s.printed.map Prod.fst) :
    Relies n i s' (.consumer q) := by
  cases q with
  | print => exact ⟨hq.1, hprinted.not.mpr hq.2.1, hready hq.2.2⟩
  | unlock => exact ⟨hq.1, hprinted.mpr hq.2⟩
  | returned => exact ⟨hq.1, hprinted.mpr hq.2⟩
  | lock => exact ⟨hq.1, hprinted.not.mpr hq.2⟩
  | check => exact ⟨hq.1, hprinted.not.mpr hq.2⟩
  | waiting => exact ⟨hq.1, hprinted.not.mpr hq.2⟩

/-- So do the other threads. -/
theorem relies_others {j : Nat} {q : Thread} (hne : j ≠ i) (h : Relies n i s p)
    (hq : Relies n j s q) (hact : act n i a s p = some (s', p')) : Relies n j s' q := by
  cases q with
  | producer q =>
      have hj := eq_of_relies hq
      cases step_of_act hact with
      | wait hready =>
          exact relies_producer hq rfl (fun _ => rfl) fun hone => by omega
      | spurious hwaiting =>
          refine relies_producer hq rfl (fun _ => rfl) fun _ hnone => ?_
          rw [hnone] at hwaiting
          cases hwaiting
      | print =>
          -- a consumer that prints has found the message ready
          refine relies_producer hq rfl (fun hzero => ?_) fun _ hnone => hnone
          have hone := h.2.2
          omega
      | write r => exact absurd (hj.trans (eq_of_relies h).symm) hne
      | broadcast => exact absurd (hj.trans (eq_of_relies h).symm) hne
      | _ => exact relies_producer hq rfl (fun _ => rfl) fun _ hnone => hnone
  | consumer q =>
      cases step_of_act hact with
      | write r => exact relies_consumer hq (fun _ => rfl) Iff.rfl
      | print =>
          refine relies_consumer hq id ?_
          rw [List.map_append, List.mem_append]
          simp [hne]
      | _ => exact relies_consumer hq id Iff.rfl

/-- What is printed, over a step. -/
theorem printed_step (h : Inv n c) (hstep : (machine n).step c (i, a) = some c') :
    c'.shared.g_ready ≤ 1 ∧ (c'.shared.printed.map Prod.fst).Nodup ∧
      (∀ e ∈ c'.shared.printed, e.1 < n) ∧
      ∀ e ∈ c'.shared.printed, e.2 = c'.shared.g_message := by
  obtain ⟨p, s', p', hget, hact, rfl⟩ := Crew.step_eq_some_iff.mp hstep
  have hrelies := h.relies i p hget
  cases step_of_act hact with
  | write r =>
      -- nothing is printed yet that the write could change
      have hnone := hrelies.2.2
      simp [hnone]
  | print =>
      refine ⟨h.ready, ?_, fun e he => ?_, fun e he => ?_⟩
      · dsimp only
        rw [List.map_append, List.map_singleton]
        exact List.nodup_append_comm.mp (List.nodup_cons.mpr ⟨hrelies.2.1, h.nodup⟩)
      · rcases List.mem_append.mp he with he | he
        · exact h.lt e he
        · rw [List.mem_singleton.mp he]
          exact hrelies.1
      · rcases List.mem_append.mp he with he | he
        · exact h.value e he
        · rw [List.mem_singleton.mp he]
  | _ => exact ⟨h.ready, h.nodup, h.lt, h.value⟩

/-- The posts, over a step. -/
theorem posts_step (h : Inv n c) (hstep : (machine n).step c (i, a) = some c') :
    c'.shared.done_sem + c'.total (Thread.taken n) = c'.shared.printed.length := by
  obtain ⟨p, s', p', hget, hact, rfl⟩ := Crew.step_eq_some_iff.mp hstep
  have hrelies := h.relies i p hget
  have htaken := Crew.total_set (Thread.taken n) p' s' hget
  have hposts := h.posts
  cases step_of_act hact with
  | returnProducer k hk =>
      have hle := hrelies.2.2.2
      simp only [Thread.taken] at *
      omega
  | _ =>
      simp only [Thread.taken, List.length_append, List.length_singleton] at *
      omega

/-- A step keeps it all. -/
theorem step (h : Inv n c) (hstep : (machine n).step c (i, a) = some c') : Inv n c' := by
  obtain ⟨hready, hnodup, hlt, hvalue⟩ := h.printed_step hstep
  refine ⟨h.exclusive.step disciplined hstep, h.sleeping.step watchful hstep,
    (Crew.length_of_step hstep).trans h.length, ?_, hready, hnodup, hlt, hvalue,
    h.posts_step hstep⟩
  exact h.relies.step (fun p s' p' _ hp hact => relies_own h.ready hp hact)
    (fun p s' p' j q hne _ _ hp hq hact => relies_others hne hp hq hact) hstep

/-- At the start the threads are about to lock. -/
theorem start : Inv n (initial n) := by
  have hmem : ∀ (i : Nat) (p : Thread), (initial n).threads[i]? = some p →
      i < n ∧ p = .consumer .lock ∨ i = n ∧ p = .producer .lock := by
    intro i p hget
    rcases Nat.lt_trichotomy i n with hlt | rfl | hgt
    · rw [initial, List.getElem?_append_left (by simpa using hlt), List.getElem?_replicate,
        if_pos hlt] at hget
      exact Or.inl ⟨hlt, (Option.some.inj hget).symm⟩
    · rw [initial, List.getElem?_append_right (by simp), List.length_replicate,
        Nat.sub_self] at hget
      exact Or.inr ⟨rfl, (Option.some.inj hget).symm⟩
    · have hnone : (initial n).threads[i]? = none :=
        List.getElem?_eq_none (by simp [initial]; omega)
      rw [hnone] at hget
      cases hget
  refine ⟨⟨fun i p hget => ?_, ?_⟩, ⟨?_, ?_⟩, ?_, fun i p hget => ?_, ?_, ?_, ?_, ?_, ?_⟩
  · rcases hmem i p hget with ⟨-, rfl⟩ | ⟨-, rfl⟩
    · simp [initial, Thread.holds, Monitor.free]
    · simp [initial, Thread.holds, Monitor.free]
  · simp [initial, Monitor.free]
  · simp [initial, Monitor.free]
  · simp [initial, Monitor.free]
  · simp [initial]
  · rcases hmem i p hget with ⟨hlt, rfl⟩ | ⟨rfl, rfl⟩
    · exact ⟨hlt, List.not_mem_nil⟩
    · exact ⟨rfl, rfl, rfl⟩
  · exact Nat.zero_le 1
  · exact List.nodup_nil
  · simp [initial]
  · simp [initial]
  · simp [initial, Crew.total, Thread.taken]

end Inv

/-- Every run keeps the invariant. -/
theorem inv_of_reached (h : (machine n).Reached c) : Inv n c :=
  Machine.ReachedBy.invariant (fun _ hstart => hstart ▸ Inv.start) (fun _ _ _ h _ => h.step) h

/-! ## The results -/

/-- Where the prints are as many as the consumers, each consumer has printed. -/
theorem Inv.perm_range (h : Inv n c) (hlength : n ≤ c.shared.printed.length) :
    (c.shared.printed.map Prod.fst).Perm (List.range n) := by
  refine (List.subperm_of_subset h.nodup fun i hi => ?_).perm_of_length_le ?_
  · obtain ⟨e, he, rfl⟩ := List.mem_map.mp hi
    exact List.mem_range.mpr (h.lt e he)
  · rw [List.length_range, List.length_map]
    exact hlength

/-- Every consumer prints the message of the producer and no other value, once at most; and when
the producer returns each of them has. -/
theorem message_reaches_all (h : (machine n).Reached c) :
    (∀ e ∈ c.shared.printed, e.2 = c.shared.g_message ∧ e.1 < n) ∧
      (c.shared.printed.map Prod.fst).Nodup ∧
      (.producer .returned ∈ c.threads →
        (c.shared.printed.map Prod.fst).Perm (List.range n)) := by
  have hinv := inv_of_reached h
  refine ⟨fun e he => ⟨hinv.value e he, hinv.lt e he⟩, hinv.nodup, fun hreturned => ?_⟩
  obtain ⟨i, hget⟩ := List.getElem?_of_mem hreturned
  have htaken : n ≤ c.total (Thread.taken n) := Crew.le_total (Thread.taken n) hget
  have hposts := hinv.posts
  exact hinv.perm_range (by omega)

/-- How many steps a thread has before it, unless it waits; the producer wakes those that do. -/
def Thread.weight (n : Nat) : Thread → Nat
  | .producer .lock => n + 5 + 2 * (n + 1)
  | .producer .write => n + 4 + 2 * (n + 1)
  | .producer .broadcast => n + 3 + 2 * (n + 1)
  | .producer .unlock => n + 2
  | .producer (.semWait k) => n + 1 - k
  | .producer .returned => 0
  | .consumer .lock => 4
  | .consumer .check => 3
  | .consumer .waiting => 4
  | .consumer .print => 2
  | .consumer .unlock => 1
  | .consumer .returned => 0

/-- How many steps the threads have before them at most. -/
def rank (n : Nat) (c : Crew Shared Thread) : Nat :=
  c.total (Thread.weight n) - 2 * c.shared.monitor.waiting.length

/-- The threads in the wait count for those that sleep. -/
theorem Inv.le_total_weight (h : Inv n c) :
    2 * c.shared.monitor.waiting.length ≤ c.total (Thread.weight n) ∧
      c.shared.monitor.waiting.length ≤ n + 1 := by
  have hlength : c.shared.monitor.waiting.length ≤ c.threads.countP Thread.waits :=
    h.sleeping.length_le
  have hle : c.threads.countP Thread.waits ≤ n + 1 := h.length ▸ List.countP_le_length
  refine ⟨?_, Nat.le_trans hlength hle⟩
  suffices hcount : 2 * c.threads.countP Thread.waits ≤ c.total (Thread.weight n) by omega
  simp only [Crew.total]
  induction c.threads with
  | nil => exact Nat.le_refl 0
  | cons p threads ih =>
      rw [List.countP_cons, List.map_cons, List.sum_cons, Nat.mul_add]
      have hp : (2 * if p.waits = true then 1 else 0) ≤ p.weight n := by
        cases p with
        | producer q => simp [Thread.waits]
        | consumer q => cases q <;> simp [Thread.waits, Thread.weight]
      omega

/-- Every step takes from the rank, but for a wait that ends by itself. -/
theorem Inv.rank_step (h : Inv n c) (hstep : (machine n).step c (i, a) = some c') :
    rank n c' + 1 ≤ rank n c + if a.isSpurious then 3 else 0 := by
  have hbefore := h.le_total_weight
  have hafter := (h.step hstep).le_total_weight
  obtain ⟨p, s', p', hget, hact, rfl⟩ := Crew.step_eq_some_iff.mp hstep
  have htotal := Crew.total_set (Thread.weight n) p' s' hget
  have hrelies := h.relies i p hget
  unfold rank
  cases step_of_act hact with
  | returnProducer k hk =>
      have hle := hrelies.2.2.2
      simp only [Thread.weight, Choice.isSpurious, Bool.false_eq_true, if_false] at *
      omega
  | broadcast =>
      simp only [Thread.weight, Choice.isSpurious, Monitor.broadcast, List.length_nil,
        Bool.false_eq_true, if_false] at *
      omega
  | spurious hwaiting =>
      have hlength := List.length_erase_of_mem hwaiting
      have hpos := List.length_pos_of_mem hwaiting
      simp only [hlength, Thread.weight, Choice.isSpurious, if_true] at *
      omega
  | wait hready =>
      simp only [Thread.weight, Choice.isSpurious, Monitor.wait, List.length_cons,
        Bool.false_eq_true, if_false] at *
      omega
  | _ =>
      simp only [Thread.weight, Choice.isSpurious, Monitor.unlock, Bool.false_eq_true,
        if_false] at *
      omega

/-- The last thread is the producer, and only it takes posts from the semaphore. -/
theorem Inv.exists_producer (h : Inv n c) :
    ∃ q, c.threads[n]? = some (.producer q) ∧
      c.total (Thread.taken n) = (Thread.producer q).taken n := by
  have hlt : n < c.threads.length := by rw [h.length]; omega
  have hget := List.getElem?_eq_getElem hlt
  cases hp : c.threads[n] with
  | consumer q =>
      have hrelies := h.relies n _ hget
      rw [hp] at hrelies
      cases q <;> exact absurd hrelies.1 (Nat.lt_irrefl n)
  | producer q =>
      rw [hp] at hget
      refine ⟨q, hget, ?_⟩
      have hset := Crew.total_set (Thread.taken n) (.producer .lock) c.shared hget
      have hzero : Crew.total (Thread.taken n)
          { c with threads := c.threads.set n (.producer .lock) } = 0 := by
        refine Crew.total_eq_zero fun i p hi => ?_
        by_cases hin : n = i
        · subst hin
          obtain rfl : Thread.producer .lock = p := by simpa [hlt] using hi
          rfl
        · rw [List.getElem?_set_ne hin] at hi
          cases p with
          | consumer q => rfl
          | producer q => exact absurd (Inv.eq_of_relies (h.relies i _ hi)) (Ne.symm hin)
      rw [hzero, Nat.zero_add] at hset
      exact hset.symm

/-- Where no thread can go on, the mutex is free: a thread in a section can go on. -/
theorem Inv.free_of_stuck (h : Inv n c)
    (hstuck : Crew.Stuck (act n) (fun a => a.isSpurious = false) c) :
    c.shared.monitor.owner = none := by
  cases howner : c.shared.monitor.owner with
  | none => rfl
  | some i =>
      obtain ⟨p, hget, hholds⟩ := h.exclusive.exists_holder howner
      have hgo := hstuck i .go p hget rfl
      have hwrite := hstuck i (.rand 0) p hget rfl
      exfalso
      match p, hholds with
      | .producer .write, _ => cases hwrite
      | .producer .broadcast, _ => cases hgo
      | .producer .unlock, _ => cases hgo
      | .consumer .check, _ =>
          simp only [act, consumerMsg] at hgo
          split at hgo <;> cases hgo
      | .consumer .print, _ => cases hgo
      | .consumer .unlock, _ => cases hgo

/-- A consumer that cannot go on, and does not sleep, has returned. -/
theorem consumer_of_stuck (h : Inv n c)
    (hstuck : Crew.Stuck (act n) (fun a => a.isSpurious = false) c)
    (hawake : c.shared.monitor.waiting = []) {q : Consumer}
    (hget : c.threads[i]? = some (.consumer q)) : q = .returned := by
  have hfree := h.free_of_stuck hstuck
  have hgo := hstuck i .go _ hget rfl
  have hheld : Thread.holds (.consumer q) = false := h.exclusive.holds_eq_false hfree hget
  cases q with
  | returned => rfl
  | lock => simp [act, consumerMsg, Monitor.lock, hfree] at hgo
  | waiting => simp [act, consumerMsg, Monitor.resume, Monitor.lock, hfree, hawake] at hgo
  | _ => cases hheld

/-- Where no thread can go on, unless a wait ends by itself, all have returned. -/
theorem of_stuck (h : Inv n c)
    (hstuck : Crew.Stuck (act n) (fun a => a.isSpurious = false) c) :
    ∀ p ∈ c.threads, p = .producer .returned ∨ p = .consumer .returned := by
  have hfree := h.free_of_stuck hstuck
  obtain ⟨q, hq, htotal⟩ := h.exists_producer
  have hrelies := h.relies n _ hq
  have hgo := hstuck n .go _ hq rfl
  have hheld : Thread.holds (.producer q) = false := h.exclusive.holds_eq_false hfree hq
  -- the producer has woken the sleepers, so the consumers have all returned
  have hawake : c.shared.monitor.waiting = [] := by
    cases q with
    | lock => simp [act, producerMsg, Monitor.lock, hfree] at hgo
    | semWait k => exact hrelies.2.2.1
    | returned => exact hrelies.2.2
    | _ => cases hheld
  have hconsumers : ∀ (i : Nat) (q : Consumer), c.threads[i]? = some (.consumer q) →
      q = .returned := fun i q hget => consumer_of_stuck h hstuck hawake hget
  -- so they have posted as often as the producer waits
  have hposted : n ≤ c.shared.printed.length := by
    have hsubset : List.range n ⊆ c.shared.printed.map Prod.fst := by
      intro i hi
      have hlt : i < c.threads.length := by
        rw [h.length]
        exact Nat.lt_succ_of_lt (List.mem_range.mp hi)
      have hget := List.getElem?_eq_getElem hlt
      have hi' := h.relies i _ hget
      cases hp : c.threads[i] with
      | producer q =>
          rw [hp] at hi'
          have hin := Inv.eq_of_relies hi'
          exact absurd (List.mem_range.mp hi) (by omega)
      | consumer q =>
          rw [hp] at hget hi'
          obtain rfl := hconsumers i q hget
          exact hi'.2
    have hle := (List.subperm_of_subset List.nodup_range hsubset).length_le
    rwa [List.length_range, List.length_map] at hle
  have hreturned : q = .returned := by
    cases q with
    | returned => rfl
    | lock => simp [act, producerMsg, Monitor.lock, hfree] at hgo
    | semWait k =>
        have hposts := h.posts
        rw [htotal] at hposts
        simp only [Thread.taken] at hposts
        by_cases hk : k < n
        · have hpos : 0 < c.shared.done_sem := by omega
          simp [act, producerMsg, hk, hpos] at hgo
        · simp [act, producerMsg, hk] at hgo
    | _ => cases hheld
  intro p hp
  obtain ⟨i, hget⟩ := List.getElem?_of_mem hp
  cases p with
  | consumer q => exact Or.inr (by rw [hconsumers i q hget])
  | producer q' =>
      obtain rfl := Inv.eq_of_relies (h.relies i _ hget)
      rw [hq] at hget
      exact Or.inl (by rw [← Option.some.inj hget, hreturned])

/-- A run has at most `7 n + 7` steps, and three more for every wait that ends by itself; and
where no thread can go on, the producer and all consumers have returned, and every consumer has
printed the message, each once. -/
theorem everyone_returns {labels : List (Nat × Choice)}
    (hrun : (machine n).run (initial n) labels = some c) :
    labels.length ≤ 7 * n + 7 + 3 * labels.countP (fun a => a.2.isSpurious) ∧
      (Crew.Stuck (act n) (fun a => a.isSpurious = false) c →
        (∀ p ∈ c.threads, p = .producer .returned ∨ p = .consumer .returned) ∧
        (c.shared.printed.map Prod.fst).Perm (List.range n) ∧
        ∀ e ∈ c.shared.printed, e.2 = c.shared.g_message) := by
  have hinv := inv_of_reached (Machine.Reached.run (.start rfl) hrun)
  constructor
  · have hrank := Crew.length_le_of_rank (I := Inv n) (rank n)
      (fun a : Nat × Choice => a.2.isSpurious) 3 (fun _ _ _ h hstep => h.step hstep)
      (fun _ _ _ h hstep => h.rank_step hstep) Inv.start hrun
    have hfirst : rank n (initial n) = 7 * n + 7 := by
      simp only [rank, Crew.total, initial, Monitor.free, List.map_append, List.map_replicate,
        List.sum_append, List.sum_replicate_nat, Thread.weight, List.length_nil, List.map_cons,
        List.map_nil, List.sum_cons, List.sum_nil]
      omega
    omega
  · intro hstuck
    have hall := of_stuck hinv hstuck
    obtain ⟨q, hq, -⟩ := hinv.exists_producer
    obtain hq' | hq' := hall _ (List.mem_of_getElem? hq)
    · have htaken : n ≤ c.total (Thread.taken n) := by
        rw [hq'] at hq
        exact Crew.le_total (Thread.taken n) hq
      have hposts := hinv.posts
      exact ⟨hall, hinv.perm_range (by omega), hinv.value⟩
    · cases hq'

/-! ## A sample run -/

/-- Two consumers, one of them asleep when the message comes. -/
def sampleRun : List (Nat × Choice) :=
  [(0, .go), (0, .go), (2, .go), (2, .rand 207), (2, .go), (2, .go), (1, .go), (1, .go), (1, .go),
    (2, .go), (1, .go), (0, .go), (0, .go), (0, .go), (0, .go), (2, .go), (2, .go)]

theorem sampleRun_eq : (machine 2).run (initial 2) sampleRun = some
    { shared := { monitor := .free, done_sem := 0, g_message := 7, g_ready := 1,
                  printed := [(1, 7), (0, 7)] }
      threads := [.consumer .returned, .consumer .returned, .producer .returned] } := rfl

theorem message_reaches_all_sample : ∃ c, (machine 2).run (initial 2) sampleRun = some c ∧
    (c.shared.printed.map Prod.fst).Perm (List.range 2) :=
  ⟨_, sampleRun_eq, (message_reaches_all (Machine.Reached.run (.start rfl) sampleRun_eq)).2.2
    (by decide)⟩

theorem everyone_returns_sample : ∃ c, (machine 2).run (initial 2) sampleRun = some c ∧
    ∀ e ∈ c.shared.printed, e.2 = c.shared.g_message := by
  refine ⟨_, sampleRun_eq, ((everyone_returns sampleRun_eq).2 fun i a p hget _ => ?_).2.2⟩
  have hp := List.mem_of_getElem? hget
  simp only [List.mem_cons, List.not_mem_nil, or_false] at hp
  rcases hp with rfl | rfl | rfl <;> cases a <;> rfl

end Ex6
end Sys
end InfinityLabs
