import InfinityLabs.Ds.Fsq
import InfinityLabs.Lib.Crew

/-!
# Producers and consumers

`system_programming/src/producer_consumer/ex2.c`: any number of producers, each of which puts its
messages into a list, and any number of consumers, which take them out, under one mutex and one
condition variable.

Between two calls of the thread library a thread takes one step.  Every variable that the threads
share is used under the mutex, but for the number of messages that a consumer prints.
-/

namespace InfinityLabs
namespace Sys

open Lib

namespace Ex2

/-! ## The program -/

/-- The static variables, with the messages in the order in which they were put into the list and
taken out, and the number of those for which there was no memory. -/
structure Shared where
  monitor : Monitor
  g_list : List Int
  g_messages_left : Nat
  put : List Int
  taken : List Int
  lost : Nat
  deriving DecidableEq, Repr

/-- Where `ProducerMsg` stands, in its turn `i`: before the `malloc`, before
`pthread_mutex_lock`, under the mutex with the message, before `pthread_cond_signal` and before
`pthread_mutex_unlock`. -/
inductive ProducerMsg where
  | malloc (i : Nat)
  | lock (i : Nat) (message : Int)
  | insert (i : Nat) (message : Int)
  | signal (i : Nat)
  | unlock (i : Nat)
  | returned
  deriving DecidableEq, Repr

/-- Where `ConsumerMsg` stands: before `pthread_mutex_lock`, at the condition of the inner loop,
in `pthread_cond_wait`. -/
inductive ConsumerMsg where
  | lock
  | check
  | waiting
  | returned
  deriving DecidableEq, Repr

/-- A thread of the program. -/
inductive Thread where
  | producer (pc : ProducerMsg)
  | consumer (pc : ConsumerMsg)
  deriving DecidableEq, Repr

/-- The step of a thread, with what is not the program's own: what `malloc` returns and which
message was drawn, whether `SLLInsert` has its memory, whom a signal wakes.  A wait may also end
by itself. -/
inductive Choice where
  | go
  | malloc (message : Option Int)
  | insert (allocated : Bool)
  | signal (woken : Nat)
  | spurious
  deriving DecidableEq, Repr

/-- The wait ends by itself. -/
def Choice.isSpurious : Choice → Bool
  | .spurious => true
  | _ => false

/-- One turn of the inner loop of `ConsumerMsg` and, where it ends, what follows up to
`pthread_mutex_unlock`; there is no step where the list is read beyond its end. -/
def check (i : Nat) (s : Shared) : Option (Shared × ConsumerMsg) :=
  if s.g_list = [] ∧ 0 < s.g_messages_left then
    some ({ s with monitor := s.monitor.wait i }, .waiting)
  else if s.g_messages_left = 0 then
    some ({ s with monitor := s.monitor.unlock }, .returned)
  else
    match s.g_list with
    | [] => none
    | message :: rest =>
        some
          ({ s with
            monitor := s.monitor.unlock
            g_list := rest
            g_messages_left := s.g_messages_left - 1
            taken := s.taken ++ [message] }, .lock)

/-- A step of the thread `i`, where each producer has `msgsPerProducer` messages. -/
def act (msgsPerProducer i : Nat) : Choice → Shared → Thread → Option (Shared × Thread)
  | .malloc (some message), s, .producer (.malloc n) =>
      if n < msgsPerProducer then some (s, .producer (.lock n message)) else none
  | .malloc none, s, .producer (.malloc n) =>
      if n < msgsPerProducer then
        some ({ s with lost := s.lost + (msgsPerProducer - n) }, .producer .returned)
      else none
  | .go, s, .producer (.malloc n) =>
      if n < msgsPerProducer then none else some (s, .producer .returned)
  | .go, s, .producer (.lock n message) =>
      (s.monitor.lock i).map fun monitor => ({ s with monitor }, .producer (.insert n message))
  | .insert true, s, .producer (.insert n message) =>
      some
        ({ s with g_list := s.g_list ++ [message], put := s.put ++ [message] },
          .producer (.signal n))
  | .insert false, s, .producer (.insert n _) =>
      some ({ s with lost := s.lost + 1 }, .producer (.signal n))
  | .signal woken, s, .producer (.signal n) =>
      (s.monitor.signal woken).map fun monitor => ({ s with monitor }, .producer (.unlock n))
  | .go, s, .producer (.unlock n) =>
      some ({ s with monitor := s.monitor.unlock }, .producer (.malloc (n + 1)))
  | .go, s, .consumer .lock =>
      (s.monitor.lock i).map fun monitor => ({ s with monitor }, .consumer .check)
  | .go, s, .consumer .check => (check i s).map fun (s, pc) => (s, .consumer pc)
  | .go, s, .consumer .waiting =>
      (s.monitor.resume i).map fun monitor => ({ s with monitor }, .consumer .check)
  | .spurious, s, .consumer .waiting =>
      (s.monitor.spurious i).map fun monitor => ({ s with monitor }, .consumer .waiting)
  | _, _, _ => none

/-- The threads that `CreateThreads` starts. -/
def initial (numConsumers numProducers msgsPerProducer : Nat) : Crew Shared Thread where
  shared :=
    { monitor := .free
      g_list := []
      g_messages_left := numProducers * msgsPerProducer
      put := []
      taken := []
      lost := 0 }
  threads := List.replicate numConsumers (.consumer .lock) ++
    List.replicate numProducers (.producer (.malloc 0))

/-- The program with the given numbers of consumers, of producers and of messages of each. -/
def machine (numConsumers numProducers msgsPerProducer : Nat) :
    Machine (Crew Shared Thread) (Nat × Choice) :=
  Crew.machine (· = initial numConsumers numProducers msgsPerProducer) (act msgsPerProducer)

/-! ## What a step does -/

/-- The steps of `act`, one constructor for each. -/
inductive Step (k i : Nat) (s : Shared) : Choice → Thread → Shared → Thread → Prop
  | malloc {n : Nat} (message : Int) (hlt : n < k) :
      Step k i s (.malloc (some message)) (.producer (.malloc n)) s (.producer (.lock n message))
  | noMemory {n : Nat} (hlt : n < k) :
      Step k i s (.malloc none) (.producer (.malloc n)) { s with lost := s.lost + (k - n) }
        (.producer .returned)
  | finish {n : Nat} (hge : k ≤ n) :
      Step k i s .go (.producer (.malloc n)) s (.producer .returned)
  | lockProducer {n : Nat} {message : Int} (hfree : s.monitor.owner = none) :
      Step k i s .go (.producer (.lock n message))
        { s with monitor := { s.monitor with owner := some i } } (.producer (.insert n message))
  | insert {n : Nat} {message : Int} :
      Step k i s (.insert true) (.producer (.insert n message))
        { s with g_list := s.g_list ++ [message], put := s.put ++ [message] }
        (.producer (.signal n))
  | insertFails {n : Nat} {message : Int} :
      Step k i s (.insert false) (.producer (.insert n message)) { s with lost := s.lost + 1 }
        (.producer (.signal n))
  | signalNone {n woken : Nat} (hnone : s.monitor.waiting = []) :
      Step k i s (.signal woken) (.producer (.signal n)) s (.producer (.unlock n))
  | signal {n woken : Nat} (hwoken : woken ∈ s.monitor.waiting) :
      Step k i s (.signal woken) (.producer (.signal n))
        { s with monitor :=
          { s.monitor with waiting := s.monitor.waiting.erase woken } } (.producer (.unlock n))
  | unlock {n : Nat} :
      Step k i s .go (.producer (.unlock n)) { s with monitor := s.monitor.unlock }
        (.producer (.malloc (n + 1)))
  | lockConsumer (hfree : s.monitor.owner = none) :
      Step k i s .go (.consumer .lock)
        { s with monitor := { s.monitor with owner := some i } } (.consumer .check)
  | wait (hempty : s.g_list = []) (hleft : 0 < s.g_messages_left) :
      Step k i s .go (.consumer .check) { s with monitor := s.monitor.wait i }
        (.consumer .waiting)
  | leave (hleft : s.g_messages_left = 0) :
      Step k i s .go (.consumer .check) { s with monitor := s.monitor.unlock }
        (.consumer .returned)
  | take {message : Int} {rest : List Int} (hlist : s.g_list = message :: rest)
      (hleft : 0 < s.g_messages_left) :
      Step k i s .go (.consumer .check)
        { s with
          monitor := s.monitor.unlock
          g_list := rest
          g_messages_left := s.g_messages_left - 1
          taken := s.taken ++ [message] } (.consumer .lock)
  | resume (hwoken : i ∉ s.monitor.waiting) (hfree : s.monitor.owner = none) :
      Step k i s .go (.consumer .waiting)
        { s with monitor := { s.monitor with owner := some i } } (.consumer .check)
  | spurious (hwaiting : i ∈ s.monitor.waiting) :
      Step k i s .spurious (.consumer .waiting)
        { s with monitor := { s.monitor with waiting := s.monitor.waiting.erase i } }
        (.consumer .waiting)

variable {k i : Nat} {a : Choice} {s s' : Shared} {p p' : Thread}

/-- A consumer under the mutex waits, leaves or takes the first message. -/
theorem step_of_check {pc : ConsumerMsg} (hcheck : check i s = some (s', pc)) :
    Step k i s .go (.consumer .check) s' (.consumer pc) := by
  unfold check at hcheck
  split at hcheck
  case isTrue hwait =>
    cases hcheck
    exact .wait hwait.1 hwait.2
  case isFalse =>
    split at hcheck
    case isTrue hleft =>
      cases hcheck
      exact .leave hleft
    case isFalse hleft =>
      cases hlist : s.g_list with
      | nil => simp [hlist] at hcheck
      | cons message rest =>
          simp only [hlist] at hcheck
          cases hcheck
          exact .take hlist (Nat.pos_of_ne_zero hleft)

/-- There are no other steps. -/
theorem step_of_act (hact : act k i a s p = some (s', p')) : Step k i s a p s' p' := by
  unfold act at hact
  split at hact
  · split at hact
    case isTrue hlt => cases hact; exact .malloc _ hlt
    case isFalse => cases hact
  · split at hact
    case isTrue hlt => cases hact; exact .noMemory hlt
    case isFalse => cases hact
  · split at hact
    case isTrue => cases hact
    case isFalse hge => cases hact; exact .finish (Nat.le_of_not_lt hge)
  · obtain ⟨monitor, hlock, heq⟩ := Option.map_eq_some_iff.mp hact
    obtain ⟨hfree, rfl⟩ := Monitor.lock_eq_some_iff.mp hlock
    cases heq
    exact .lockProducer hfree
  · cases hact
    exact .insert
  · cases hact
    exact .insertFails
  · obtain ⟨monitor, hsignal, heq⟩ := Option.map_eq_some_iff.mp hact
    cases heq
    obtain ⟨hnone, rfl⟩ | ⟨hwoken, rfl⟩ := Monitor.signal_eq_some_iff.mp hsignal
    · exact .signalNone hnone
    · exact .signal hwoken
  · cases hact
    exact .unlock
  · obtain ⟨monitor, hlock, heq⟩ := Option.map_eq_some_iff.mp hact
    obtain ⟨hfree, rfl⟩ := Monitor.lock_eq_some_iff.mp hlock
    cases heq
    exact .lockConsumer hfree
  · obtain ⟨⟨t, pc⟩, hcheck, heq⟩ := Option.map_eq_some_iff.mp hact
    cases heq
    exact step_of_check hcheck
  · obtain ⟨monitor, hresume, heq⟩ := Option.map_eq_some_iff.mp hact
    obtain ⟨hwoken, hfree, rfl⟩ := Monitor.resume_eq_some_iff.mp hresume
    cases heq
    exact .resume hwoken hfree
  · obtain ⟨monitor, hspurious, heq⟩ := Option.map_eq_some_iff.mp hact
    obtain ⟨hwaiting, rfl⟩ := Monitor.spurious_eq_some_iff.mp hspurious
    cases heq
    exact .spurious hwaiting
  · cases hact

/-! ## What every run keeps -/

/-- The thread stands in a section under the mutex. -/
def Thread.holds : Thread → Bool
  | .producer (.insert _ _) | .producer (.signal _) | .producer (.unlock _)
  | .consumer .check => true
  | _ => false

/-- The thread stands in the wait. -/
def Thread.waits : Thread → Bool
  | .consumer .waiting => true
  | _ => false

/-- How many messages the producer has still to put. -/
def Thread.toPut (k : Nat) : Thread → Nat
  | .producer (.malloc n) | .producer (.lock n _) | .producer (.insert n _) => k - n
  | .producer (.signal n) | .producer (.unlock n) => k - (n + 1)
  | _ => 0

/-- What a thread may rely on: its turn is one of its `k` turns, there are messages left where
it is to signal, and there are none where a consumer has returned. -/
def Relies (k : Nat) (s : Shared) : Thread → Prop
  | .producer (.lock n _) | .producer (.insert n _) | .producer (.unlock n) => n < k
  | .producer (.signal n) => n < k ∧ 0 < s.g_messages_left
  | .consumer .returned => s.g_messages_left = 0
  | _ => True

/-- The thread is on its way to the list, or to wake one that is. -/
def Attends (i : Nat) (s : Shared) : Thread → Prop
  | .producer (.signal _) => True
  | .consumer .lock | .consumer .check => True
  | .consumer .waiting => i ∉ s.monitor.waiting
  | _ => False

/-- Each step locks and unlocks as it enters and leaves a section. -/
theorem disciplined (k : Nat) :
    Crew.Disciplined (fun s : Shared => s.monitor.owner) Thread.holds (act k) := by
  intro i a s p s' p' hact
  cases step_of_act hact <;> simp_all [Thread.holds, Monitor.unlock, Monitor.wait]

/-- Nobody is put to sleep but by its own step, and nobody leaves the wait asleep. -/
theorem watchful (k : Nat) : Crew.Watchful Shared.monitor Thread.waits (act k) := by
  intro i a s p s' p' hact hnodup hwaits
  have herase : ∀ j woken, j ∈ s.monitor.waiting.erase woken → j ∈ s.monitor.waiting :=
    fun j woken => List.mem_of_mem_erase
  cases step_of_act hact with
  | signal hwoken =>
      exact ⟨hnodup.erase _, fun hi => hwaits (herase _ _ hi), fun j hj _ => herase _ _ hj⟩
  | spurious hwaiting =>
      exact ⟨hnodup.erase _, fun _ => rfl, fun j hj _ => herase _ _ hj⟩
  | wait hempty hleft =>
      have hi : i ∉ s.monitor.waiting := fun hi => absurd (hwaits hi) Bool.false_ne_true
      refine ⟨List.nodup_cons.mpr ⟨hi, hnodup⟩, fun _ => rfl, fun j hj hne => ?_⟩
      exact (List.mem_cons.mp hj).resolve_left hne
  | resume hwoken hfree => exact ⟨hnodup, fun hi => absurd hi hwoken, fun j hj _ => hj⟩
  | _ => exact ⟨hnodup, fun hi => absurd (hwaits hi) Bool.false_ne_true, fun j hj _ => hj⟩

/-- The state of the program in every run: of `numProducers` times `k` messages those that are
taken, those in the list and those that are yet to be put. -/
structure Inv (numProducers k : Nat) (c : Crew Shared Thread) : Prop where
  exclusive : c.Exclusive (fun s => s.monitor.owner) Thread.holds
  sleeping : c.Sleeping Shared.monitor Thread.waits
  queue : c.shared.put = c.shared.taken ++ c.shared.g_list
  left : c.shared.g_messages_left + c.shared.taken.length = numProducers * k
  count : c.shared.put.length + c.shared.lost + c.total (Thread.toPut k) = numProducers * k
  relies : c.Each fun _ s p => Relies k s p

variable {numConsumers numProducers : Nat} {c c' : Crew Shared Thread}

namespace Inv

/-- Where no messages are left the list is empty. -/
theorem g_list_eq_nil (h : Inv numProducers k c) (hleft : c.shared.g_messages_left = 0) :
    c.shared.g_list = [] := by
  have hput := congrArg List.length h.queue
  have hcount := h.count
  have htaken := h.left
  rw [List.length_append] at hput
  exact List.eq_nil_of_length_eq_zero (by omega)

/-- The messages leave the list in the order in which they came. -/
theorem queue_step (h : Inv numProducers k c)
    (hstep : (machine numConsumers numProducers k).step c (i, a) = some c') :
    c'.shared.put = c'.shared.taken ++ c'.shared.g_list := by
  obtain ⟨p, s', p', -, hact, rfl⟩ := Crew.step_eq_some_iff.mp hstep
  have hqueue := h.queue
  cases step_of_act hact with
  | insert => simp only [hqueue, List.append_assoc]
  | take hlist hleft => simp only [hqueue, hlist, List.append_assoc, List.singleton_append]
  | _ => exact hqueue

/-- What is left and what is taken is all. -/
theorem left_step (h : Inv numProducers k c)
    (hstep : (machine numConsumers numProducers k).step c (i, a) = some c') :
    c'.shared.g_messages_left + c'.shared.taken.length = numProducers * k := by
  obtain ⟨p, s', p', -, hact, rfl⟩ := Crew.step_eq_some_iff.mp hstep
  have hkept := h.left
  cases step_of_act hact with
  | take hlist hleft =>
      simp only [List.length_append, List.length_singleton]
      omega
  | _ => exact hkept

/-- What is put, what is lost and what is to be put is all. -/
theorem count_step (h : Inv numProducers k c)
    (hstep : (machine numConsumers numProducers k).step c (i, a) = some c') :
    c'.shared.put.length + c'.shared.lost + c'.total (Thread.toPut k) = numProducers * k := by
  obtain ⟨p, s', p', hget, hact, rfl⟩ := Crew.step_eq_some_iff.mp hstep
  have hcount := h.count
  have htotal := Crew.total_set (Thread.toPut k) p' s' hget
  have hrelies := h.relies i p hget
  cases step_of_act hact with
  | insert =>
      simp only [Relies] at hrelies
      simp only [Thread.toPut] at htotal
      simp only [List.length_append, List.length_singleton]
      omega
  | _ =>
      simp only [Relies] at hrelies
      simp only [Thread.toPut] at htotal
      simp only
      omega

/-- Where a producer is to put a message there are messages left. -/
theorem left_pos (h : Inv numProducers k c) {n : Nat} {message : Int}
    (hget : c.threads[i]? = some (.producer (.insert n message))) :
    0 < c.shared.g_messages_left := by
  have hlt : n < k := h.relies i _ hget
  have hle := Crew.le_total (Thread.toPut k) hget
  have hput := congrArg List.length h.queue
  have hcount := h.count
  have hleft := h.left
  rw [List.length_append] at hput
  simp only [Thread.toPut] at hle
  omega

/-- What the threads rely on. -/
theorem relies_step (h : Inv numProducers k c)
    (hstep : (machine numConsumers numProducers k).step c (i, a) = some c') :
    c'.Each fun _ s p => Relies k s p := by
  refine Crew.Each.step h.relies ?_ ?_ hstep
  · intro p s' p' hget hp hact
    cases step_of_act hact with
    | insert => exact ⟨hp, h.left_pos hget⟩
    | insertFails => exact ⟨hp, h.left_pos hget⟩
    | malloc message hlt => exact hlt
    | lockProducer => exact hp
    | signalNone => exact hp.1
    | signal => exact hp.1
    | leave hleft => exact hleft
    | _ => trivial
  · intro p s' p' j q hne hget hgetq hp hq hact
    cases step_of_act hact with
    | take hlist hleft =>
        -- A producer that is to signal has the mutex, so the taker is no other thread.
        have hfree : q.holds = false := by
          by_contra hholds
          have hj : q.holds = true := by simpa using hholds
          exact hne (h.exclusive.eq hget hgetq rfl hj).symm
        match q, hq with
        | .producer (.lock _ _), hq => exact hq
        | .producer (.insert _ _), hq => exact hq
        | .producer (.unlock _), hq => exact hq
        | .producer (.signal _), _ => cases hfree
        | .consumer .returned, hq => exact absurd hq (Nat.ne_of_gt hleft)
        | .producer (.malloc _), _ | .producer .returned, _ | .consumer .lock, _
        | .consumer .check, _ | .consumer .waiting, _ => trivial
    | _ => exact hq

/-- A step keeps it all. -/
theorem step (h : Inv numProducers k c)
    (hstep : (machine numConsumers numProducers k).step c (i, a) = some c') :
    Inv numProducers k c' where
  exclusive := h.exclusive.step (disciplined k) hstep
  sleeping := h.sleeping.step (watchful k) hstep
  queue := h.queue_step hstep
  left := h.left_step hstep
  count := h.count_step hstep
  relies := h.relies_step hstep

/-- At the start nothing is done. -/
theorem start : Inv numProducers k (initial numConsumers numProducers k) := by
  have hmem : ∀ (i : Nat) (p : Thread),
      (initial numConsumers numProducers k).threads[i]? = some p →
      p = .consumer .lock ∨ p = .producer (.malloc 0) := by
    intro i p hget
    have hp := List.mem_of_getElem? hget
    rw [initial, List.mem_append, List.mem_replicate, List.mem_replicate] at hp
    exact hp.imp And.right And.right
  refine ⟨⟨?_, ?_⟩, ⟨?_, ?_⟩, ?_, ?_, ?_, ?_⟩
  · intro i p hget
    rcases hmem i p hget with rfl | rfl <;> simp [initial, Thread.holds, Monitor.free]
  · simp [initial, Monitor.free]
  · simp [initial, Monitor.free]
  · simp [initial, Monitor.free]
  · simp [initial]
  · simp [initial]
  · simp [initial, Crew.total, Thread.toPut]
  · intro i p hget
    rcases hmem i p hget with rfl | rfl <;> trivial

end Inv

/-- Every run keeps the invariant. -/
theorem inv_of_reached (h : (machine numConsumers numProducers k).Reached c) :
    Inv numProducers k c :=
  Machine.ReachedBy.invariant (fun _ hstart => hstart ▸ Inv.start) (fun _ _ _ h _ => h.step) h

/-! ## No wake-up is lost -/

/-- There is a consumer. -/
def HasConsumer (c : Crew Shared Thread) : Prop :=
  ∃ (i : Nat) (pc : ConsumerMsg), c.threads[i]? = some (.consumer pc)

/-- Where there is something in the list, some thread attends to it. -/
def Attended (c : Crew Shared Thread) : Prop :=
  c.shared.g_list ≠ [] → ∃ i p, c.threads[i]? = some p ∧ Attends i c.shared p

/-- A consumer remains one. -/
theorem HasConsumer.step (h : HasConsumer c)
    (hstep : (machine numConsumers numProducers k).step c (i, a) = some c') :
    HasConsumer c' := by
  obtain ⟨p, s', p', hget, hact, rfl⟩ := Crew.step_eq_some_iff.mp hstep
  obtain ⟨j, pc, hj⟩ := h
  by_cases hij : i = j
  · subst hij
    obtain rfl := Option.some.inj (hget.symm.trans hj)
    have hlt : i < c.threads.length := (List.getElem?_eq_some_iff.mp hget).1
    cases step_of_act hact with
    | _ => exact ⟨i, _, List.getElem?_set_self hlt⟩
  · exact ⟨j, pc, (List.getElem?_set_ne hij).trans hj⟩

/-- Whether a thread attends depends on those that sleep. -/
theorem Attends.congr {s s' : Shared} {p : Thread} (h : Attends i s p)
    (hwaiting : s'.monitor.waiting = s.monitor.waiting) : Attends i s' p := by
  match p, h with
  | .producer (.signal _), _ => trivial
  | .consumer .lock, _ => trivial
  | .consumer .check, _ => trivial
  | .consumer .waiting, h => exact fun hi => h (hwaiting ▸ hi)

/-- A thread that attends after its own step. -/
theorem exists_attends_self {p : Thread} {s' : Shared} {p' : Thread}
    (hget : c.threads[i]? = some p) (hattends : Attends i s' p') :
    ∃ j q, (c.threads.set i p')[j]? = some q ∧ Attends j s' q :=
  ⟨i, p', List.getElem?_set_self (List.getElem?_eq_some_iff.mp hget).1, hattends⟩

/-- A thread that attends goes on where another one steps that wakes nobody. -/
theorem exists_attends_other {s' : Shared} {p' : Thread} {j : Nat} {q : Thread} (hne : i ≠ j)
    (hget : c.threads[j]? = some q) (hattends : Attends j s' q) :
    ∃ j q, (c.threads.set i p')[j]? = some q ∧ Attends j s' q :=
  ⟨j, q, (List.getElem?_set_ne hne).trans hget, hattends⟩

/-- No step leaves the list without a thread that attends to it. -/
theorem Attended.step (h : Attended c) (hinv : Inv numProducers k c) (hconsumer : HasConsumer c)
    (hstep : (machine numConsumers numProducers k).step c (i, a) = some c') : Attended c' := by
  obtain ⟨p, s', p', hget, hact, rfl⟩ := Crew.step_eq_some_iff.mp hstep
  intro hlist
  have hasleep := fun hp : p.waits = false => hinv.sleeping.not_mem hget hp
  -- A thread that does not attend takes a step that neither fills the list nor puts to sleep.
  have hkept : (∀ j q, Attends j c.shared q → Attends j s' q) → c.shared.g_list ≠ [] →
      ¬ Attends i c.shared p →
      ∃ j q, (c.threads.set i p')[j]? = some q ∧ Attends j s' q := by
    intro hsame hnonempty hnot
    obtain ⟨j, q, hj, hattends⟩ := h hnonempty
    refine exists_attends_other (fun hij => hnot ?_) hj (hsame j q hattends)
    subst hij
    obtain rfl := Option.some.inj (hget.symm.trans hj)
    exact hattends
  cases step_of_act hact with
  | malloc message hlt => exact hkept (fun _ _ => id) hlist id
  | noMemory hlt => exact hkept (fun _ _ hq => hq.congr rfl) hlist id
  | finish hge => exact hkept (fun _ _ => id) hlist id
  | lockProducer hfree => exact hkept (fun _ _ hq => hq.congr rfl) hlist id
  | insert => exact exists_attends_self hget trivial
  | insertFails => exact exists_attends_self hget trivial
  | signalNone hnone =>
      obtain ⟨j, pc, hj⟩ := hconsumer
      have hleft : 0 < c.shared.g_messages_left := (hinv.relies i _ hget).2
      refine exists_attends_other (fun hij => ?_) hj ?_
      · subst hij
        cases hget.symm.trans hj
      · cases pc with
        | lock => trivial
        | check => trivial
        | waiting => simp [Attends, hnone]
        | returned => exact absurd (hinv.relies j _ hj) (Nat.ne_of_gt hleft)
  | @signal n woken hwoken =>
      obtain ⟨q, hq, hwaits⟩ := hinv.sleeping.waits woken hwoken
      obtain rfl : q = .consumer .waiting := by
        match q, hwaits with
        | .consumer .waiting, _ => rfl
      refine exists_attends_other (fun hij => ?_) hq hinv.sleeping.nodup.not_mem_erase
      subst hij
      cases hget.symm.trans hq
  | unlock => exact hkept (fun _ _ hq => hq.congr rfl) hlist id
  | lockConsumer hfree => exact exists_attends_self hget trivial
  | wait hempty hleft => exact absurd hempty hlist
  | leave hleft => exact absurd (hinv.g_list_eq_nil hleft) hlist
  | take hnext hleft => exact exists_attends_self hget trivial
  | resume hwoken hfree => exact exists_attends_self hget trivial
  | spurious hwaiting =>
      exact exists_attends_self hget hinv.sleeping.nodup.not_mem_erase

/-- Every run with a consumer keeps the list attended. -/
theorem attended_of_reached (hconsumers : 0 < numConsumers)
    (h : (machine numConsumers numProducers k).Reached c) : HasConsumer c ∧ Attended c := by
  induction h with
  | start hstart =>
      subst hstart
      refine ⟨⟨0, .lock, ?_⟩, fun hlist => absurd rfl hlist⟩
      rw [initial, List.getElem?_append_left (by simpa using hconsumers), List.getElem?_replicate,
        if_pos hconsumers]
  | step hreached _ hstep ih =>
      exact ⟨ih.1.step hstep, ih.2.step (inv_of_reached hreached) ih.1 hstep⟩

/-- The messages are taken in the order in which they were put, each once; what is left is what
is not taken; one thread at most is in a section under the mutex, and a consumer there never
reads beyond the end of the list. -/
theorem messages_in_order (h : (machine numConsumers numProducers k).Reached c) :
    c.shared.put = c.shared.taken ++ c.shared.g_list ∧
      c.shared.g_messages_left + c.shared.taken.length = numProducers * k ∧
      (∀ (i j : Nat) (p q : Thread), c.threads[i]? = some p → c.threads[j]? = some q →
        p.holds = true → q.holds = true → i = j) ∧
      ∀ i, check i c.shared ≠ none := by
  have hinv := inv_of_reached h
  refine ⟨hinv.queue, hinv.left, fun i j p q => hinv.exclusive.eq, fun i hnone => ?_⟩
  unfold check at hnone
  split at hnone
  · cases hnone
  · split at hnone
    · cases hnone
    · split at hnone
      · simp_all
      · cases hnone

/-- A message in the list, a consumer on its way. -/
theorem messages_in_order_of_one : ∃ c,
    (machine 1 1 1).run (initial 1 1 1)
      [(0, .go), (0, .go), (1, .malloc (some 7)), (1, .go), (1, .insert true)] = some c ∧
    c.shared.put = c.shared.taken ++ c.shared.g_list ∧ c.shared.put = [7] := by
  have hrun : (machine 1 1 1).run (initial 1 1 1)
      [(0, .go), (0, .go), (1, .malloc (some 7)), (1, .go), (1, .insert true)] =
      some
        { shared :=
            { monitor := { owner := some 1, waiting := [0] }
              g_list := [7]
              g_messages_left := 1
              put := [7]
              taken := []
              lost := 0 }
          threads := [.consumer .waiting, .producer (.signal 0)] } := rfl
  have hreached := Machine.Reached.run (M := machine 1 1 1) (.start rfl) hrun
  exact ⟨_, hrun, (messages_in_order hreached).1, rfl⟩

/-! ## The program comes to an end -/

/-- How many steps a thread has before it, unless it waits. -/
def Thread.weight (k : Nat) : Thread → Nat
  | .producer (.malloc n) => 10 * (k - n) + 1
  | .producer (.lock n _) => 10 * (k - (n + 1)) + 10
  | .producer (.insert n _) => 10 * (k - (n + 1)) + 9
  | .producer (.signal n) => 10 * (k - (n + 1)) + 8
  | .producer (.unlock n) => 10 * (k - (n + 1)) + 2
  | .consumer .lock | .consumer .waiting => 5
  | .consumer .check => 4
  | .producer .returned | .consumer .returned => 0

/-- How many steps the program has before it at most: a consumer that sleeps has none until it
is woken. -/
def rank (k : Nat) (c : Crew Shared Thread) : Nat :=
  c.total (Thread.weight k) + 2 * c.shared.g_messages_left -
    5 * c.shared.monitor.waiting.length

/-- The threads in the wait count for those that sleep. -/
theorem Inv.le_total_weight (h : Inv numProducers k c) :
    5 * c.shared.monitor.waiting.length ≤ c.total (Thread.weight k) := by
  have hlength : c.shared.monitor.waiting.length ≤ c.threads.countP Thread.waits :=
    h.sleeping.length_le
  suffices hcount : 5 * c.threads.countP Thread.waits ≤ c.total (Thread.weight k) by omega
  simp only [Crew.total]
  induction c.threads with
  | nil => exact Nat.le_refl 0
  | cons p threads ih =>
      rw [List.countP_cons, List.map_cons, List.sum_cons, Nat.mul_add]
      have hp : (5 * if p.waits = true then 1 else 0) ≤ p.weight k := by
        cases p with
        | producer pc => simp [Thread.waits]
        | consumer pc => cases pc <;> simp [Thread.waits, Thread.weight]
      omega

/-- Every step takes from the rank, but for a wait that ends by itself. -/
theorem Inv.rank_step (h : Inv numProducers k c)
    (hstep : (machine numConsumers numProducers k).step c (i, a) = some c') :
    rank k c' + 1 ≤ rank k c + if a.isSpurious then 6 else 0 := by
  have hbefore := h.le_total_weight
  have hafter := (h.step hstep).le_total_weight
  obtain ⟨p, s', p', hget, hact, rfl⟩ := Crew.step_eq_some_iff.mp hstep
  have htotal := Crew.total_set (Thread.weight k) p' s' hget
  have hrelies := h.relies i p hget
  have hasleep := fun hp : p.waits = false => h.sleeping.not_mem hget hp
  unfold rank
  cases step_of_act hact with
  | signal hwoken =>
      have hlength := List.length_erase_of_mem hwoken
      have hpos := List.length_pos_of_mem hwoken
      simp only [Thread.weight] at htotal
      simp only [Choice.isSpurious, hlength, Bool.false_eq_true, if_false] at *
      omega
  | spurious hwaiting =>
      have hlength := List.length_erase_of_mem hwaiting
      have hpos := List.length_pos_of_mem hwaiting
      simp only [Thread.weight] at htotal
      simp only [Choice.isSpurious, hlength, if_true] at *
      omega
  | wait hempty hleft =>
      simp only [Thread.weight] at htotal
      simp only [Choice.isSpurious, Monitor.wait, List.length_cons, Bool.false_eq_true,
        if_false] at *
      omega
  | _ =>
      simp only [Relies] at hrelies
      simp only [Thread.weight] at htotal
      simp only [Choice.isSpurious, Monitor.unlock, Bool.false_eq_true, if_false] at *
      omega

/-- At the start the rank is that of all turns. -/
theorem rank_initial : rank k (initial numConsumers numProducers k) =
    5 * numConsumers + numProducers * (12 * k + 1) := by
  have hten : numProducers * (10 * k) = 10 * (numProducers * k) := Nat.mul_left_comm _ _ _
  have htwelve : numProducers * (12 * k) = 12 * (numProducers * k) := Nat.mul_left_comm _ _ _
  simp only [rank, Crew.total, initial, Monitor.free, List.map_append,
    List.map_replicate, List.sum_append, List.sum_replicate_nat, Thread.weight, List.length_nil,
    Nat.mul_add, Nat.sub_zero]
  omega

/-- Where no thread can go on, unless a wait ends by itself, the list is empty and every thread
has returned or sleeps. -/
theorem of_stuck (hconsumers : 0 < numConsumers)
    (h : (machine numConsumers numProducers k).Reached c)
    (hstuck : Crew.Stuck (act k) (fun a => a.isSpurious = false) c) :
    c.shared.g_list = [] ∧ ∀ i p, c.threads[i]? = some p →
      p = .producer .returned ∨ p = .consumer .returned ∨
        p = .consumer .waiting ∧ i ∈ c.shared.monitor.waiting := by
  have hinv := inv_of_reached h
  -- A thread in a section can go on, so the mutex is free.
  have hfree : c.shared.monitor.owner = none := by
    cases howner : c.shared.monitor.owner with
    | none => rfl
    | some i =>
        obtain ⟨p, hget, hholds⟩ := hinv.exclusive.exists_holder howner
        exfalso
        match p, hholds with
        | .producer (.insert n message), _ => cases hstuck i (.insert true) _ hget rfl
        | .producer (.signal n), _ =>
            obtain ⟨woken, m, hsignal⟩ := Monitor.exists_signal c.shared.monitor
            have hnone := hstuck i (.signal woken) _ hget rfl
            simp [act, hsignal] at hnone
        | .producer (.unlock n), _ => cases hstuck i .go _ hget rfl
        | .consumer .check, _ =>
            have hnone := hstuck i .go _ hget rfl
            have hcheck : check i c.shared = none := by simpa [act] using hnone
            exact (messages_in_order h).2.2.2 i hcheck
  have hall : ∀ i p, c.threads[i]? = some p →
      p = .producer .returned ∨ p = .consumer .returned ∨
        p = .consumer .waiting ∧ i ∈ c.shared.monitor.waiting := by
    intro i p hget
    match p, hget with
    | .producer .returned, _ => exact Or.inl rfl
    | .consumer .returned, _ => exact Or.inr (Or.inl rfl)
    | .consumer .waiting, hget =>
        refine Or.inr (Or.inr ⟨rfl, ?_⟩)
        have hnone := hstuck i .go _ hget rfl
        by_contra hwoken
        simp [act, Monitor.resume, Monitor.lock, hwoken, hfree] at hnone
    | .producer (.malloc n), hget =>
        have hgo := hstuck i .go _ hget rfl
        have hmalloc := hstuck i (.malloc none) _ hget rfl
        by_cases hlt : n < k
        · simp [act, hlt] at hmalloc
        · simp [act, hlt] at hgo
    | .producer (.lock n message), hget =>
        have hnone := hstuck i .go _ hget rfl
        simp [act, Monitor.lock, hfree] at hnone
    | .consumer .lock, hget =>
        have hnone := hstuck i .go _ hget rfl
        simp [act, Monitor.lock, hfree] at hnone
    | .producer (.insert n message), hget | .producer (.signal n), hget
    | .producer (.unlock n), hget | .consumer .check, hget =>
        cases hinv.exclusive.holds_eq_false hfree hget
  refine ⟨?_, hall⟩
  by_contra hlist
  obtain ⟨i, p, hget, hattends⟩ := (attended_of_reached hconsumers h).2 hlist
  rcases hall i p hget with rfl | rfl | ⟨rfl, hi⟩
  · exact hattends
  · exact hattends
  · exact hattends hi

/-- A run has at most as many steps as the turns of its threads allow, and six more for every
wait that ends by itself; and where no thread can go on, all that was put has been taken, every
message for which there was memory was put, and a thread that has not returned is a consumer
that nobody will wake. -/
theorem every_message_is_taken (hconsumers : 0 < numConsumers) {labels : List (Nat × Choice)}
    (hrun : (machine numConsumers numProducers k).run
      (initial numConsumers numProducers k) labels = some c') :
    labels.length ≤ 5 * numConsumers + numProducers * (12 * k + 1) +
        6 * labels.countP (fun a => a.2.isSpurious) ∧
      (Crew.Stuck (act k) (fun a => a.isSpurious = false) c' →
        c'.shared.taken = c'.shared.put ∧
        c'.shared.put.length + c'.shared.lost = numProducers * k ∧
        ∀ i p, c'.threads[i]? = some p →
          p = .producer .returned ∨ p = .consumer .returned ∨
            p = .consumer .waiting ∧ i ∈ c'.shared.monitor.waiting) := by
  have hreached : (machine numConsumers numProducers k).Reached c' :=
    Machine.Reached.run (.start rfl) hrun
  have hinv := inv_of_reached hreached
  constructor
  · have hrank := Crew.length_le_of_rank (I := Inv numProducers k) (rank k)
      (fun a : Nat × Choice => a.2.isSpurious) 6 (fun _ _ _ h hstep => h.step hstep)
      (fun _ _ _ h hstep => h.rank_step hstep) Inv.start hrun
    rw [rank_initial] at hrank
    omega
  · intro hstuck
    obtain ⟨hlist, hall⟩ := of_stuck hconsumers hreached hstuck
    have htotal : c'.total (Thread.toPut k) = 0 := by
      refine Crew.total_eq_zero fun i p hget => ?_
      rcases hall i p hget with rfl | rfl | ⟨rfl, -⟩ <;> rfl
    have hqueue := hinv.queue
    have hcount := hinv.count
    rw [hlist, List.append_nil] at hqueue
    exact ⟨hqueue.symm, by omega, hall⟩

/-- A consumer that sleeps, a producer that wakes it, and both come to their end. -/
theorem every_message_is_taken_of_two : ∃ c', (machine 1 1 1).run (initial 1 1 1)
      [(0, .go), (0, .go), (1, .malloc (some 7)), (1, .go), (1, .insert true), (1, .signal 0),
        (1, .go), (1, .go), (0, .go), (0, .go), (0, .go), (0, .go)] = some c' ∧
    c'.shared.taken = c'.shared.put ∧ c'.shared.put.length + c'.shared.lost = 1 * 1 ∧
    ∀ i p, c'.threads[i]? = some p →
      p = .producer .returned ∨ p = .consumer .returned ∨
        p = .consumer .waiting ∧ i ∈ c'.shared.monitor.waiting := by
  have hrun : (machine 1 1 1).run (initial 1 1 1)
      [(0, .go), (0, .go), (1, .malloc (some 7)), (1, .go), (1, .insert true), (1, .signal 0),
        (1, .go), (1, .go), (0, .go), (0, .go), (0, .go), (0, .go)] =
      some
        { shared :=
            { monitor := .free
              g_list := []
              g_messages_left := 0
              put := [7]
              taken := [7]
              lost := 0 }
          threads := [.consumer .returned, .producer .returned] } := rfl
  refine ⟨_, hrun, (every_message_is_taken Nat.one_pos hrun).2 fun i a p hget _ => ?_⟩
  have hp := List.mem_of_getElem? hget
  simp only [List.mem_cons, List.not_mem_nil, or_false] at hp
  rcases hp with rfl | rfl <;> simp [act]

/-- Once all messages have been taken nobody signals any more, so a consumer that sleeps then is
never woken, and `main` waits for it in `pthread_join` for ever. -/
theorem sleeps_for_ever {labels : List (Nat × Choice)}
    (h : (machine numConsumers numProducers k).Reached c)
    (hleft : c.shared.g_messages_left = 0) (hi : i ∈ c.shared.monitor.waiting)
    (hnone : ∀ a ∈ labels, a.2.isSpurious = false)
    (hrun : (machine numConsumers numProducers k).run c labels = some c') :
    c'.threads[i]? = some (.consumer .waiting) ∧ i ∈ c'.shared.monitor.waiting := by
  have hkept : (machine numConsumers numProducers k).Reached c' ∧
      c'.shared.g_messages_left = 0 ∧ i ∈ c'.shared.monitor.waiting := by
    refine Machine.run_invariant (M := machine numConsumers numProducers k)
      (I := fun c => (machine numConsumers numProducers k).Reached c ∧
        c.shared.g_messages_left = 0 ∧ i ∈ c.shared.monitor.waiting) ?_ ⟨h, hleft, hi⟩
      (Machine.admits_of_run hrun) hrun
    rintro c ⟨j, a⟩ c' hmem - ⟨hreached, hleft, hi⟩ hstep
    refine ⟨.step hreached trivial hstep, ?_⟩
    have hspurious := hnone _ hmem
    obtain ⟨p, s', p', hget, hact, rfl⟩ := Crew.step_eq_some_iff.mp hstep
    have hrelies := (inv_of_reached hreached).relies j p hget
    cases step_of_act hact with
    | signalNone hwaiting => exact absurd hleft (Nat.ne_of_gt hrelies.2)
    | signal hwoken => exact absurd hleft (Nat.ne_of_gt hrelies.2)
    | spurious hwaiting => cases hspurious
    | take hlist hpos => exact absurd hleft (Nat.ne_of_gt hpos)
    | wait hempty hpos => exact absurd hleft (Nat.ne_of_gt hpos)
    | _ => exact ⟨hleft, hi⟩
  obtain ⟨p, hget, hwaits⟩ := (inv_of_reached hkept.1).sleeping.waits i hkept.2.2
  match p, hwaits with
  | .consumer .waiting, _ => exact ⟨hget, hkept.2.2⟩

/-- Two consumers sleep, a message wakes one of them, which takes it, and the other one sleeps
on while the threads return. -/
theorem sleeps_for_ever_beside_another :
    ∃ c c', (machine 2 1 1).run (initial 2 1 1)
        [(0, .go), (0, .go), (1, .go), (1, .go), (2, .malloc (some 7)), (2, .go),
          (2, .insert true), (2, .signal 0), (2, .go), (0, .go), (0, .go)] = some c ∧
      (machine 2 1 1).run c [(0, .go), (2, .go), (0, .go)] = some c' ∧
      c'.threads[1]? = some (.consumer .waiting) ∧ 1 ∈ c'.shared.monitor.waiting := by
  let taken : Shared :=
    { monitor := { owner := none, waiting := [1] }
      g_list := []
      g_messages_left := 0
      put := [7]
      taken := [7]
      lost := 0 }
  have hrun : (machine 2 1 1).run (initial 2 1 1)
      [(0, .go), (0, .go), (1, .go), (1, .go), (2, .malloc (some 7)), (2, .go),
        (2, .insert true), (2, .signal 0), (2, .go), (0, .go), (0, .go)] =
      some ⟨taken, [.consumer .lock, .consumer .waiting, .producer (.malloc 1)]⟩ := rfl
  have hrest : (machine 2 1 1).run
        ⟨taken, [.consumer .lock, .consumer .waiting, .producer (.malloc 1)]⟩
        [(0, .go), (2, .go), (0, .go)] =
      some ⟨taken, [.consumer .returned, .consumer .waiting, .producer .returned]⟩ := rfl
  have hreached := Machine.Reached.run (M := machine 2 1 1) (.start rfl) hrun
  exact ⟨_, _, hrun, hrest, sleeps_for_ever hreached rfl (by decide) (by decide) hrest⟩

end Ex2

end Sys
end InfinityLabs
