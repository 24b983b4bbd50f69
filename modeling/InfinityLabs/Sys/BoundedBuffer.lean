import InfinityLabs.Ds.CBuff
import InfinityLabs.Ds.Fsq
import InfinityLabs.Lib.Crew

/-!
# Producers and consumers at a circular buffer

`system_programming/src/producer_consumer/ex4.c`: producers write the bytes of a message into a
circular buffer and consumers read as many, under one mutex, with a semaphore for the free places
and one for the messages.  The numbers of threads and of messages are arbitrary; the buffer is
created with as many bytes as each thread has messages, which is less than they need.
-/

namespace InfinityLabs
namespace Sys

open Lib Ds

namespace Ex4

/-! ## The program -/

/-- `sizeof(int)`. -/
def sizeofInt : Nat := 4

/-- The static variables, with the messages in the order in which they were written and read. -/
structure Shared where
  mutex : Monitor
  g_cbuffer : CBuff
  write_sem : Nat
  read_sem : Nat
  wrote : List (List UInt8)
  read : List (List UInt8)
  deriving DecidableEq, Repr

/-- Where `ProducerMsg` stands in its turn `i`: before the draw of a message, `sem_wait`,
`pthread_mutex_lock`, `CBuffWrite`, `pthread_mutex_unlock` and `sem_post`. -/
inductive ProducerMsg where
  | draw (i : Nat)
  | wait (i : Nat) (message : List UInt8)
  | lock (i : Nat) (message : List UInt8)
  | write (i : Nat) (message : List UInt8)
  | unlock (i : Nat)
  | post (i : Nat)
  | returned
  deriving DecidableEq, Repr

/-- Where `ConsumerMsg` stands in its turn `i`, with the bytes of its variable `message`. -/
inductive ConsumerMsg where
  | wait (i : Nat) (message : List UInt8)
  | lock (i : Nat) (message : List UInt8)
  | read (i : Nat) (message : List UInt8)
  | unlock (i : Nat) (message : List UInt8)
  | post (i : Nat) (message : List UInt8)
  | returned
  deriving DecidableEq, Repr

/-- A thread of the program. -/
inductive Thread where
  | producer (pc : ProducerMsg)
  | consumer (pc : ConsumerMsg)
  deriving DecidableEq, Repr

/-- A step of a thread; the message that a producer draws is the label's. -/
inductive Choice where
  | go
  | draw (message : List UInt8)
  deriving DecidableEq, Repr

/-- A step of the thread `i`, where each has `numItems` turns.  What `CBuffWrite` and `CBuffRead`
return is not looked at; a read that brings fewer bytes leaves the rest of the variable. -/
def act (numItems i : Nat) : Choice → Shared → Thread → Option (Shared × Thread)
  | .draw message, s, .producer (.draw n) =>
      if n < numItems ∧ message.length = sizeofInt then some (s, .producer (.wait n message))
      else none
  | .go, s, .producer (.draw n) =>
      if n < numItems then none else some (s, .producer .returned)
  | .go, s, .producer (.wait n message) =>
      (semWait s.write_sem).map fun write_sem =>
        ({ s with write_sem }, .producer (.lock n message))
  | .go, s, .producer (.lock n message) =>
      (s.mutex.lock i).map fun mutex => ({ s with mutex }, .producer (.write n message))
  | .go, s, .producer (.write n message) =>
      (cbuffWrite s.g_cbuffer message sizeofInt).map fun (g_cbuffer, _) =>
        ({ s with g_cbuffer, wrote := s.wrote ++ [message] }, .producer (.unlock n))
  | .go, s, .producer (.unlock n) =>
      some ({ s with mutex := s.mutex.unlock }, .producer (.post n))
  | .go, s, .producer (.post n) =>
      some ({ s with read_sem := semPost s.read_sem }, .producer (.draw (n + 1)))
  | .go, s, .consumer (.wait n message) =>
      if n < numItems then
        (semWait s.read_sem).map fun read_sem =>
          ({ s with read_sem }, .consumer (.lock n message))
      else some (s, .consumer .returned)
  | .go, s, .consumer (.lock n message) =>
      (s.mutex.lock i).map fun mutex => ({ s with mutex }, .consumer (.read n message))
  | .go, s, .consumer (.read n message) =>
      (cbuffRead s.g_cbuffer sizeofInt).map fun (g_cbuffer, _, bytes) =>
        let message := bytes ++ message.drop bytes.length
        ({ s with g_cbuffer, read := s.read ++ [message] }, .consumer (.unlock n message))
  | .go, s, .consumer (.unlock n message) =>
      some ({ s with mutex := s.mutex.unlock }, .consumer (.post n message))
  | .go, s, .consumer (.post n message) =>
      some ({ s with write_sem := semPost s.write_sem }, .consumer (.wait (n + 1) message))
  | _, _, _ => none

/-- The threads that `CreateThreads` starts, at the buffer that `main` has created. -/
def initial (g_cbuffer : CBuff) (numConsumers numProducers numItems : Nat) : Crew Shared Thread where
  shared :=
    { mutex := .free
      g_cbuffer
      write_sem := semInit 0 numItems
      read_sem := semInit 0 0
      wrote := []
      read := [] }
  threads := List.replicate numConsumers (.consumer (.wait 0 (List.replicate sizeofInt 0))) ++
    List.replicate numProducers (.producer (.draw 0))

/-- The program, with what `malloc` may return to `CBuffCreate`. -/
def machine (numConsumers numProducers numItems : Nat) :
    Machine (Crew Shared Thread) (Nat × Choice) :=
  Crew.machine
    (fun c => ∃ block g_cbuffer, IsBlock numItems block ∧
      cbuffCreate block numItems = some (some g_cbuffer) ∧
      c = initial g_cbuffer numConsumers numProducers numItems)
    (act numItems)

/-! ## What a step does -/

/-- The steps of `act`, one constructor for each. -/
inductive Step (k i : Nat) (s : Shared) : Thread → Shared → Thread → Prop
  | draw {n : Nat} {message : List UInt8} (hlt : n < k) (hlength : message.length = sizeofInt) :
      Step k i s (.producer (.draw n)) s (.producer (.wait n message))
  | finishProducer {n : Nat} (hge : k ≤ n) :
      Step k i s (.producer (.draw n)) s (.producer .returned)
  | waitWrite {n : Nat} {message : List UInt8} (hpos : 0 < s.write_sem) :
      Step k i s (.producer (.wait n message)) { s with write_sem := s.write_sem - 1 }
        (.producer (.lock n message))
  | lockProducer {n : Nat} {message : List UInt8} (hfree : s.mutex.owner = none) :
      Step k i s (.producer (.lock n message))
        { s with mutex := { s.mutex with owner := some i } } (.producer (.write n message))
  | write {n : Nat} {message : List UInt8} {g_cbuffer : CBuff} {count : Int}
      (hwrite : cbuffWrite s.g_cbuffer message sizeofInt = some (g_cbuffer, count)) :
      Step k i s (.producer (.write n message))
        { s with g_cbuffer, wrote := s.wrote ++ [message] } (.producer (.unlock n))
  | unlockProducer {n : Nat} :
      Step k i s (.producer (.unlock n)) { s with mutex := s.mutex.unlock } (.producer (.post n))
  | postRead {n : Nat} :
      Step k i s (.producer (.post n)) { s with read_sem := semPost s.read_sem }
        (.producer (.draw (n + 1)))
  | finishConsumer {n : Nat} {message : List UInt8} (hge : k ≤ n) :
      Step k i s (.consumer (.wait n message)) s (.consumer .returned)
  | waitRead {n : Nat} {message : List UInt8} (hlt : n < k) (hpos : 0 < s.read_sem) :
      Step k i s (.consumer (.wait n message)) { s with read_sem := s.read_sem - 1 }
        (.consumer (.lock n message))
  | lockConsumer {n : Nat} {message : List UInt8} (hfree : s.mutex.owner = none) :
      Step k i s (.consumer (.lock n message))
        { s with mutex := { s.mutex with owner := some i } } (.consumer (.read n message))
  | read {n : Nat} {message bytes : List UInt8} {g_cbuffer : CBuff} {count : Int}
      (hread : cbuffRead s.g_cbuffer sizeofInt = some (g_cbuffer, count, bytes)) :
      Step k i s (.consumer (.read n message))
        { s with g_cbuffer, read := s.read ++ [bytes ++ message.drop bytes.length] }
        (.consumer (.unlock n (bytes ++ message.drop bytes.length)))
  | unlockConsumer {n : Nat} {message : List UInt8} :
      Step k i s (.consumer (.unlock n message)) { s with mutex := s.mutex.unlock }
        (.consumer (.post n message))
  | postWrite {n : Nat} {message : List UInt8} :
      Step k i s (.consumer (.post n message)) { s with write_sem := semPost s.write_sem }
        (.consumer (.wait (n + 1) message))

variable {k i : Nat} {a : Choice} {s s' : Shared} {p p' : Thread}

/-- `sem_wait` takes a permit. -/
theorem semWait_eq_some_iff {sem sem' : Nat} :
    semWait sem = some sem' ↔ 0 < sem ∧ sem' = sem - 1 := by
  unfold semWait
  split
  · simp [*]
  · simp [*, eq_comm, Nat.pos_iff_ne_zero]

/-- There are no other steps. -/
theorem step_of_act (hact : act k i a s p = some (s', p')) : Step k i s p s' p' := by
  unfold act at hact
  split at hact
  · split at hact
    case isTrue h => cases hact; exact .draw h.1 h.2
    case isFalse => cases hact
  · split at hact
    case isTrue => cases hact
    case isFalse hge => cases hact; exact .finishProducer (Nat.le_of_not_lt hge)
  · obtain ⟨write_sem, hwait, heq⟩ := Option.map_eq_some_iff.mp hact
    obtain ⟨hpos, rfl⟩ := semWait_eq_some_iff.mp hwait
    cases heq
    exact .waitWrite hpos
  · obtain ⟨mutex, hlock, heq⟩ := Option.map_eq_some_iff.mp hact
    obtain ⟨hfree, rfl⟩ := Monitor.lock_eq_some_iff.mp hlock
    cases heq
    exact .lockProducer hfree
  · obtain ⟨⟨g_cbuffer, count⟩, hwrite, heq⟩ := Option.map_eq_some_iff.mp hact
    cases heq
    exact .write hwrite
  · cases hact
    exact .unlockProducer
  · cases hact
    exact .postRead
  · split at hact
    case isTrue hlt =>
      obtain ⟨read_sem, hwait, heq⟩ := Option.map_eq_some_iff.mp hact
      obtain ⟨hpos, rfl⟩ := semWait_eq_some_iff.mp hwait
      cases heq
      exact .waitRead hlt hpos
    case isFalse hge => cases hact; exact .finishConsumer (Nat.le_of_not_lt hge)
  · obtain ⟨mutex, hlock, heq⟩ := Option.map_eq_some_iff.mp hact
    obtain ⟨hfree, rfl⟩ := Monitor.lock_eq_some_iff.mp hlock
    cases heq
    exact .lockConsumer hfree
  · obtain ⟨⟨g_cbuffer, count, bytes⟩, hread, heq⟩ := Option.map_eq_some_iff.mp hact
    cases heq
    exact .read hread
  · cases hact
    exact .unlockConsumer
  · cases hact
    exact .postWrite
  · cases hact

/-! ## What every run keeps -/

/-- The thread stands in a section under the mutex. -/
def Thread.holds : Thread → Bool
  | .producer (.write _ _) | .producer (.unlock _) | .consumer (.read _ _)
  | .consumer (.unlock _ _) => true
  | _ => false

/-- The free place that the thread has taken and not yet filled, or emptied and not yet
posted. -/
def Thread.place : Thread → Nat
  | .producer (.lock _ _) | .producer (.write _ _) | .consumer (.unlock _ _)
  | .consumer (.post _ _) => 1
  | _ => 0

/-- The message that the thread has taken and not yet read, or written and not yet posted. -/
def Thread.message : Thread → Nat
  | .consumer (.lock _ _) | .consumer (.read _ _) | .producer (.unlock _)
  | .producer (.post _) => 1
  | _ => 0

/-- How many messages the producer has still to write. -/
def Thread.toWrite (k : Nat) : Thread → Nat
  | .producer (.draw n) | .producer (.wait n _) | .producer (.lock n _)
  | .producer (.write n _) => k - n
  | .producer (.unlock n) | .producer (.post n) => k - (n + 1)
  | _ => 0

/-- How many messages the consumer has still to read. -/
def Thread.toRead (k : Nat) : Thread → Nat
  | .consumer (.wait n _) | .consumer (.lock n _) | .consumer (.read n _) => k - n
  | .consumer (.unlock n _) | .consumer (.post n _) => k - (n + 1)
  | _ => 0

/-- The turn is one of the `k` turns, and the variable `message` has its bytes. -/
def Relies (k : Nat) : Thread → Prop
  | .producer (.wait n message) | .producer (.lock n message) | .producer (.write n message)
  | .consumer (.lock n message) | .consumer (.read n message) | .consumer (.unlock n message)
  | .consumer (.post n message) => n < k ∧ message.length = sizeofInt
  | .producer (.unlock n) | .producer (.post n) => n < k
  | .consumer (.wait _ message) => message.length = sizeofInt
  | _ => True

/-- Each step locks and unlocks as it enters and leaves a section. -/
theorem disciplined (k : Nat) :
    Crew.Disciplined (fun s : Shared => s.mutex.owner) Thread.holds (act k) := by
  intro i a s p s' p' hact
  cases step_of_act hact <;> simp_all [Thread.holds, Monitor.unlock]

/-- The buffer has the messages that are written and not read, one after the other. -/
structure Holds (s : Shared) (queue : List (List UInt8)) : Prop where
  wrote : s.wrote = s.read ++ queue
  content : s.g_cbuffer.content = queue.flatten
  length : ∀ message ∈ queue, message.length = sizeofInt

/-- The state of the program in every run: each place of the `k` is free, taken or filled, each
message that is not read is posted, about to be posted or about to be read. -/
structure Inv (numConsumers numProducers k : Nat) (c : Crew Shared Thread) : Prop where
  exclusive : c.Exclusive (fun s => s.mutex.owner) Thread.holds
  valid : c.shared.g_cbuffer.Valid
  capacity : c.shared.g_cbuffer.capacity = cbuffCapacity k
  queue : ∃ queue, Holds c.shared queue
  places : c.shared.write_sem + c.total Thread.place + c.shared.wrote.length =
    k + c.shared.read.length
  messages : c.shared.read_sem + c.total Thread.message + c.shared.read.length =
    c.shared.wrote.length
  written : c.shared.wrote.length + c.total (Thread.toWrite k) = numProducers * k
  readAll : c.shared.read.length + c.total (Thread.toRead k) = numConsumers * k
  relies : c.Each fun _ _ p => Relies k p

variable {numConsumers numProducers : Nat} {c c' : Crew Shared Thread}

/-- A buffer that has room for all messages has not many. -/
theorem le_two_of_fits (hfits : sizeofInt * k ≤ cbuffCapacity k) : k ≤ 2 := by
  rw [sizeofInt, cbuffCapacity, DEFAULT_SIZE] at hfits
  by_cases hlarge : 8 < k
  · rw [if_pos hlarge] at hfits
    omega
  · rw [if_neg hlarge] at hfits
    omega

/-- Messages of one width have as many bytes as there are messages of them. -/
theorem Holds.length_content {s : Shared} {queue : List (List UInt8)} (h : Holds s queue) :
    s.g_cbuffer.content.length = sizeofInt * queue.length := by
  rw [h.content]
  have hlength := h.length
  clear h
  induction queue with
  | nil => rfl
  | cons message queue ih =>
      rw [List.flatten_cons, List.length_append, List.length_cons, Nat.mul_succ,
        ih fun m hm => hlength m (List.mem_cons_of_mem _ hm), hlength message List.mem_cons_self]
      exact Nat.add_comm _ _

/-- What is written is read or in the buffer. -/
theorem Holds.length_wrote {s : Shared} {queue : List (List UInt8)} (h : Holds s queue) :
    s.wrote.length = s.read.length + queue.length := by
  rw [h.wrote, List.length_append]

namespace Inv

/-- A producer with a place writes its message behind the others. -/
theorem write (hfits : sizeofInt * k ≤ cbuffCapacity k) (h : Inv numConsumers numProducers k c)
    {n : Nat} {message : List UInt8} {g_cbuffer : CBuff} {count : Int}
    (hget : c.threads[i]? = some (.producer (.write n message)))
    (hwrite : cbuffWrite c.shared.g_cbuffer message sizeofInt = some (g_cbuffer, count)) :
    g_cbuffer.Valid ∧ g_cbuffer.capacity = cbuffCapacity k ∧
      ∃ queue, Holds { c.shared with g_cbuffer, wrote := c.shared.wrote ++ [message] } queue := by
  obtain ⟨queue, hqueue⟩ := h.queue
  obtain ⟨-, hlength⟩ := h.relies i _ hget
  have hplace := Crew.le_total Thread.place hget
  have hplaces := h.places
  have hcontent := hqueue.length_content
  have hsize := h.valid.length_content
  have hcapacity := h.capacity
  rw [hqueue.length_wrote] at hplaces
  simp only [Thread.place] at hplace
  have hroom : sizeofInt * (queue.length + 1) ≤ cbuffCapacity k :=
    Nat.le_trans (Nat.mul_le_mul_left _ (by omega)) hfits
  have hmin : min sizeofInt (c.shared.g_cbuffer.capacity - c.shared.g_cbuffer.size) =
      sizeofInt := Nat.min_eq_left (by rw [Nat.mul_succ] at hroom; omega)
  obtain ⟨buffer, hdone, hvalid, hsame, hbytes⟩ :=
    @CBuff.Valid.write _ h.valid message sizeofInt (by rw [hmin, hlength])
  rw [hdone] at hwrite
  cases hwrite
  refine ⟨hvalid, hsame.trans hcapacity, queue ++ [message], ?_, ?_, ?_⟩
  · rw [hqueue.wrote, List.append_assoc]
  · rw [hbytes, hmin, ← hlength, List.take_length, hqueue.content, List.flatten_append,
      List.flatten_singleton]
  · intro m hm
    rcases List.mem_append.mp hm with hm | hm
    · exact hqueue.length m hm
    · rw [List.mem_singleton.mp hm, hlength]

/-- A consumer with a permit reads the first message. -/
theorem read (h : Inv numConsumers numProducers k c)
    {n : Nat} {message bytes : List UInt8} {g_cbuffer : CBuff} {count : Int}
    (hget : c.threads[i]? = some (.consumer (.read n message)))
    (hread : cbuffRead c.shared.g_cbuffer sizeofInt = some (g_cbuffer, count, bytes)) :
    g_cbuffer.Valid ∧ g_cbuffer.capacity = cbuffCapacity k ∧
      (bytes ++ message.drop bytes.length).length = sizeofInt ∧
      ∃ queue, Holds { c.shared with
        g_cbuffer
        read := c.shared.read ++ [bytes ++ message.drop bytes.length] } queue := by
  obtain ⟨queue, hqueue⟩ := h.queue
  obtain ⟨-, hlength⟩ := h.relies i _ hget
  have hpermit := Crew.le_total Thread.message hget
  have hmessages := h.messages
  rw [hqueue.length_wrote] at hmessages
  simp only [Thread.message] at hpermit
  obtain ⟨buffer, hdone, hvalid, hsame, hrest⟩ := h.valid.read sizeofInt
  rw [hdone] at hread
  cases hread
  cases queue with
  | nil =>
      simp only [List.length_nil] at hmessages
      omega
  | cons first queue =>
      have hfirst : first.length = sizeofInt := hqueue.length first List.mem_cons_self
      have htake : c.shared.g_cbuffer.content.take sizeofInt = first := by
        rw [hqueue.content, List.flatten_cons, ← hfirst, List.take_left]
      have hdrop : message.drop first.length = [] :=
        List.drop_of_length_le (by rw [hlength, hfirst])
      rw [htake, hdrop, List.append_nil]
      refine ⟨hvalid, hsame.trans h.capacity, hfirst, queue, ?_, ?_, ?_⟩
      · rw [hqueue.wrote, List.append_assoc, List.singleton_append]
      · rw [hrest, hqueue.content, List.flatten_cons, ← hfirst, List.drop_left]
      · exact fun m hm => hqueue.length m (List.mem_cons_of_mem _ hm)

/-- The buffer has the messages that are not read. -/
theorem buffer_step (hfits : sizeofInt * k ≤ cbuffCapacity k)
    (h : Inv numConsumers numProducers k c)
    (hstep : (machine numConsumers numProducers k).step c (i, a) = some c') :
    c'.shared.g_cbuffer.Valid ∧ c'.shared.g_cbuffer.capacity = cbuffCapacity k ∧
      ∃ queue, Holds c'.shared queue := by
  obtain ⟨p, s', p', hget, hact, rfl⟩ := Crew.step_eq_some_iff.mp hstep
  obtain ⟨queue, hqueue⟩ := h.queue
  cases step_of_act hact with
  | write hwrite => exact h.write hfits hget hwrite
  | read hread =>
      obtain ⟨hvalid, hcapacity, -, hrest⟩ := h.read hget hread
      exact ⟨hvalid, hcapacity, hrest⟩
  | _ => exact ⟨h.valid, h.capacity, queue, hqueue.wrote, hqueue.content, hqueue.length⟩

/-- The semaphores stay below their largest value. -/
theorem sem_lt (hfits : sizeofInt * k ≤ cbuffCapacity k) (h : Inv numConsumers numProducers k c) :
    c.shared.read_sem < SEM_VALUE_MAX ∧ c.shared.write_sem < SEM_VALUE_MAX := by
  obtain ⟨queue, hqueue⟩ := h.queue
  have hplaces := h.places
  have hmessages := h.messages
  have hfew := le_two_of_fits hfits
  have hwrote := hqueue.length_wrote
  have hmax : 2 < SEM_VALUE_MAX := by decide
  omega

/-- Places and messages are counted. -/
theorem counts_step (hfits : sizeofInt * k ≤ cbuffCapacity k)
    (h : Inv numConsumers numProducers k c)
    (hstep : (machine numConsumers numProducers k).step c (i, a) = some c') :
    c'.shared.write_sem + c'.total Thread.place + c'.shared.wrote.length =
        k + c'.shared.read.length ∧
      c'.shared.read_sem + c'.total Thread.message + c'.shared.read.length =
        c'.shared.wrote.length ∧
      c'.shared.wrote.length + c'.total (Thread.toWrite k) = numProducers * k ∧
      c'.shared.read.length + c'.total (Thread.toRead k) = numConsumers * k := by
  obtain ⟨hreadSem, hwriteSem⟩ := h.sem_lt hfits
  obtain ⟨p, s', p', hget, hact, rfl⟩ := Crew.step_eq_some_iff.mp hstep
  have hplace := Crew.total_set Thread.place p' s' hget
  have hmessage := Crew.total_set Thread.message p' s' hget
  have htoWrite := Crew.total_set (Thread.toWrite k) p' s' hget
  have htoRead := Crew.total_set (Thread.toRead k) p' s' hget
  have hplaces := h.places
  have hmessages := h.messages
  have hwritten := h.written
  have hreadAll := h.readAll
  have hrelies := h.relies i p hget
  cases step_of_act hact with
  | postRead =>
      have hpost : semPost c.shared.read_sem = c.shared.read_sem + 1 := if_pos hreadSem
      simp only [hpost, Thread.place, Thread.message, Thread.toWrite, Thread.toRead] at *
      omega
  | postWrite =>
      have hpost : semPost c.shared.write_sem = c.shared.write_sem + 1 := if_pos hwriteSem
      simp only [hpost, Thread.place, Thread.message, Thread.toWrite, Thread.toRead] at *
      omega
  | _ =>
      simp only [Thread.place, Thread.message, Thread.toWrite, Thread.toRead, Relies,
        List.length_append, List.length_singleton] at *
      omega

/-- What the threads rely on. -/
theorem relies_step (h : Inv numConsumers numProducers k c)
    (hstep : (machine numConsumers numProducers k).step c (i, a) = some c') :
    c'.Each fun _ _ p => Relies k p := by
  refine Crew.Each.step h.relies ?_ (fun _ _ _ _ _ _ _ _ _ hq _ => hq) hstep
  intro p s' p' hget hp hact
  cases step_of_act hact with
  | draw hlt hlength => exact ⟨hlt, hlength⟩
  | finishProducer => trivial
  | finishConsumer => trivial
  | waitRead hlt hpos => exact ⟨hlt, hp⟩
  | write hwrite => exact hp.1
  | read hread => exact ⟨hp.1, (h.read hget hread).2.2.1⟩
  | postRead => trivial
  | postWrite => exact hp.2
  | _ => exact hp

/-- A step keeps it all. -/
theorem step (hfits : sizeofInt * k ≤ cbuffCapacity k) (h : Inv numConsumers numProducers k c)
    (hstep : (machine numConsumers numProducers k).step c (i, a) = some c') :
    Inv numConsumers numProducers k c' := by
  obtain ⟨hvalid, hcapacity, hqueue⟩ := h.buffer_step hfits hstep
  obtain ⟨hplaces, hmessages, hwritten, hreadAll⟩ := h.counts_step hfits hstep
  exact
    { exclusive := h.exclusive.step (disciplined k) hstep
      valid := hvalid
      capacity := hcapacity
      queue := hqueue
      places := hplaces
      messages := hmessages
      written := hwritten
      readAll := hreadAll
      relies := h.relies_step hstep }

/-- At the start nothing is done. -/
theorem start (hfits : sizeofInt * k ≤ cbuffCapacity k)
    (hstart : (machine numConsumers numProducers k).start c) :
    Inv numConsumers numProducers k c := by
  obtain ⟨block, g_cbuffer, hblock, hcreate, rfl⟩ := hstart
  have hfew := le_two_of_fits hfits
  have hinvariant : CBuffState.Invariant k { cbuff := g_cbuffer, accepted := [], read := [] } :=
    cbuffMachine_start (by omega) ⟨block, hblock, hcreate, rfl, rfl⟩
  have hcontent : g_cbuffer.content = [] := hinvariant.order
  have hmem : ∀ (i : Nat) (p : Thread),
      (initial g_cbuffer numConsumers numProducers k).threads[i]? = some p →
      p = .consumer (.wait 0 (List.replicate sizeofInt 0)) ∨ p = .producer (.draw 0) := by
    intro i p hget
    have hp := List.mem_of_getElem? hget
    rw [initial, List.mem_append, List.mem_replicate, List.mem_replicate] at hp
    exact hp.imp And.right And.right
  refine ⟨⟨?_, ?_⟩, hinvariant.valid, hinvariant.capacity_eq, ⟨[], rfl, hcontent, ?_⟩, ?_, ?_, ?_,
    ?_, ?_⟩
  · intro i p hget
    rcases hmem i p hget with rfl | rfl <;> simp [initial, Thread.holds, Monitor.free]
  · simp [initial, Monitor.free]
  · simp
  · have hsmall : k % 2 ^ 32 = k := Nat.mod_eq_of_lt (by omega)
    have hmax : k % 2 ^ 32 ≤ SEM_VALUE_MAX :=
      hsmall.symm ▸ Nat.le_trans hfew (by decide)
    have hinit : semInit 0 k = k := by rw [semInit, if_pos hmax, hsmall]
    simp [initial, Crew.total, Thread.place, hinit]
  · simp [initial, Crew.total, Thread.message, semInit]
  · simp [initial, Crew.total, Thread.toWrite]
  · simp [initial, Crew.total, Thread.toRead]
  · intro i p hget
    rcases hmem i p hget with rfl | rfl <;> trivial

end Inv

/-- Every run keeps the invariant. -/
theorem inv_of_reached (hfits : sizeofInt * k ≤ cbuffCapacity k)
    (h : (machine numConsumers numProducers k).Reached c) : Inv numConsumers numProducers k c :=
  Machine.ReachedBy.invariant (fun _ => Inv.start hfits) (fun _ _ _ h _ => h.step hfits) h

/-! ## The results -/

/-- The consumers read the messages that the producers wrote, whole, each once and in order; the
buffer has the others, and one thread at most uses it at a time. -/
theorem messages_stay_whole (hfits : sizeofInt * k ≤ cbuffCapacity k)
    (h : (machine numConsumers numProducers k).Reached c) :
    (∃ queue, c.shared.wrote = c.shared.read ++ queue ∧
      c.shared.g_cbuffer.content = queue.flatten ∧ queue.length ≤ k) ∧
    ∀ (i j : Nat) (p q : Thread), c.threads[i]? = some p → c.threads[j]? = some q →
      p.holds = true → q.holds = true → i = j := by
  have hinv := inv_of_reached hfits h
  obtain ⟨queue, hqueue⟩ := hinv.queue
  have hplaces := hinv.places
  have hwrote := hqueue.length_wrote
  exact ⟨⟨queue, hqueue.wrote, hqueue.content, by omega⟩, fun i j p q => hinv.exclusive.eq⟩

/-- A buffer that `CBuffCreate` makes for one item. -/
def emptyBuffer : CBuff := ⟨0, 0, 8, List.replicate 8 0⟩

/-- One producer and one consumer: the consumer waits until the producer has posted. -/
def handOver : List (Nat × Choice) :=
  [(1, .draw [7, 0, 0, 0]), (1, .go), (1, .go), (1, .go), (1, .go), (1, .go), (0, .go), (0, .go),
    (0, .go), (0, .go), (1, .go), (0, .go), (0, .go)]

/-- `main` may start with that buffer. -/
theorem start_emptyBuffer : (machine 1 1 1).start (initial emptyBuffer 1 1 1) :=
  ⟨some (List.replicate 32 0), emptyBuffer, by intro bytes h; cases h; decide, by decide, rfl⟩

/-- The message is in the buffer when the producer has posted it. -/
theorem messages_stay_whole_of_one : ∃ c,
    (machine 1 1 1).run (initial emptyBuffer 1 1 1) (handOver.take 6) = some c ∧
      c.shared.wrote = [[7, 0, 0, 0]] ∧
      ∃ queue, c.shared.wrote = c.shared.read ++ queue ∧
        c.shared.g_cbuffer.content = queue.flatten ∧ queue.length ≤ 1 := by
  have hrun : (machine 1 1 1).run (initial emptyBuffer 1 1 1) (handOver.take 6) =
      some ⟨⟨.free, ⟨0, 4, 8, [7, 0, 0, 0, 0, 0, 0, 0]⟩, 0, 1, [[7, 0, 0, 0]], []⟩,
        [.consumer (.wait 0 [0, 0, 0, 0]), .producer (.draw 1)]⟩ := rfl
  have hreached := Machine.Reached.run (.start start_emptyBuffer) hrun
  exact ⟨_, hrun, rfl, (messages_stay_whole (by decide) hreached).1⟩

/-- How many steps a thread has before it. -/
def Thread.weight (k : Nat) : Thread → Nat
  | .producer (.draw n) => 6 * (k - n) + 1
  | .producer (.wait n _) => 6 * (k - (n + 1)) + 6
  | .producer (.lock n _) => 6 * (k - (n + 1)) + 5
  | .producer (.write n _) => 6 * (k - (n + 1)) + 4
  | .producer (.unlock n) => 6 * (k - (n + 1)) + 3
  | .producer (.post n) => 6 * (k - (n + 1)) + 2
  | .consumer (.wait n _) => 5 * (k - n) + 1
  | .consumer (.lock n _) => 5 * (k - (n + 1)) + 5
  | .consumer (.read n _) => 5 * (k - (n + 1)) + 4
  | .consumer (.unlock n _) => 5 * (k - (n + 1)) + 3
  | .consumer (.post n _) => 5 * (k - (n + 1)) + 2
  | .producer .returned | .consumer .returned => 0

/-- Every step is one of those. -/
theorem Inv.weight_step (h : Inv numConsumers numProducers k c)
    (hstep : (machine numConsumers numProducers k).step c (i, a) = some c') :
    c'.total (Thread.weight k) + 1 ≤ c.total (Thread.weight k) := by
  obtain ⟨p, s', p', hget, hact, rfl⟩ := Crew.step_eq_some_iff.mp hstep
  have htotal := Crew.total_set (Thread.weight k) p' s' hget
  have hrelies := h.relies i p hget
  cases step_of_act hact with
  | _ =>
      simp only [Relies, Thread.weight] at *
      omega

/-- Where no thread can go on, each has returned or waits for a semaphore that is 0. -/
theorem of_stuck (hfits : sizeofInt * k ≤ cbuffCapacity k)
    (h : (machine numConsumers numProducers k).Reached c)
    (hstuck : Crew.Stuck (act k) (fun _ => True) c) (hget : c.threads[i]? = some p) :
    p = .producer .returned ∨ p = .consumer .returned ∨
      (∃ n message, p = .producer (.wait n message) ∧ c.shared.write_sem = 0) ∨
      ∃ n message, p = .consumer (.wait n message) ∧ n < k ∧ c.shared.read_sem = 0 := by
  have hinv := inv_of_reached hfits h
  -- A thread in a section can go on, so the mutex is free.
  have hfree : c.shared.mutex.owner = none := by
    cases howner : c.shared.mutex.owner with
    | none => rfl
    | some i =>
        obtain ⟨p, hget, hholds⟩ := hinv.exclusive.exists_holder howner
        exfalso
        have hnone := hstuck i .go _ hget trivial
        match p, hholds with
        | .producer (.write n message), _ =>
            have hlength : message.length = sizeofInt := (hinv.relies i _ hget).2
            obtain ⟨buffer, hdone, -⟩ := @CBuff.Valid.write _ hinv.valid message sizeofInt
              (Nat.le_trans (Nat.min_le_left _ _) (Nat.le_of_eq hlength.symm))
            simp [act, hdone] at hnone
        | .consumer (.read n message), _ =>
            obtain ⟨buffer, hdone, -⟩ := hinv.valid.read sizeofInt
            simp [act, hdone] at hnone
        | .producer (.unlock n), _ => cases hnone
        | .consumer (.unlock n message), _ => cases hnone
  have hnone := hstuck i .go _ hget trivial
  match p, hget with
  | .producer .returned, _ => exact Or.inl rfl
  | .consumer .returned, _ => exact Or.inr (Or.inl rfl)
  | .producer (.wait n message), _ =>
      refine Or.inr (Or.inr (Or.inl ⟨n, message, rfl, ?_⟩))
      simpa [act, semWait] using hnone
  | .consumer (.wait n message), _ =>
      by_cases hlt : n < k
      · refine Or.inr (Or.inr (Or.inr ⟨n, message, rfl, hlt, ?_⟩))
        simpa [act, hlt, semWait] using hnone
      · simp [act, hlt] at hnone
  | .producer (.draw n), hget =>
      have hdraw := hstuck i (.draw [0, 0, 0, 0]) _ hget trivial
      by_cases hlt : n < k
      · simp [act, hlt, sizeofInt] at hdraw
      · simp [act, hlt] at hnone
  | .producer (.lock n message), _ => simp [act, Monitor.lock, hfree] at hnone
  | .consumer (.lock n message), _ => simp [act, Monitor.lock, hfree] at hnone
  | .producer (.post n), _ => cases hnone
  | .consumer (.post n message), _ => cases hnone
  | .producer (.write n message), hget | .producer (.unlock n), hget
  | .consumer (.read n message), hget | .consumer (.unlock n message), hget =>
      cases hinv.exclusive.holds_eq_false hfree hget

/-- At the start the threads have all their turns before them. -/
theorem weight_initial {g_cbuffer : CBuff} :
    (initial g_cbuffer numConsumers numProducers k).total (Thread.weight k) =
      numConsumers * (5 * k + 1) + numProducers * (6 * k + 1) := by
  simp only [Crew.total, initial, List.map_append, List.map_replicate, List.sum_append,
    List.sum_replicate_nat, Thread.weight, Nat.sub_zero]

/-- A run has at most as many steps as the turns of the threads; where none of them can go on,
as many messages are read as there are turns of the fewer of them, and with as many consumers as
producers all have returned and every message is read. -/
theorem every_turn_is_taken (hfits : sizeofInt * k ≤ cbuffCapacity k)
    {labels : List (Nat × Choice)} (hstart : (machine numConsumers numProducers k).start c)
    (hrun : (machine numConsumers numProducers k).run c labels = some c') :
    labels.length ≤ numConsumers * (5 * k + 1) + numProducers * (6 * k + 1) ∧
      (Crew.Stuck (act k) (fun _ => True) c' →
        c'.shared.read.length = min numConsumers numProducers * k ∧
        (numConsumers = numProducers → c'.shared.read = c'.shared.wrote ∧
          ∀ p ∈ c'.threads, p = .producer .returned ∨ p = .consumer .returned)) := by
  have hreached : (machine numConsumers numProducers k).Reached c' :=
    Machine.Reached.run (.start hstart) hrun
  have hinv := inv_of_reached hfits hreached
  constructor
  · have hrank := Crew.length_le_of_rank (I := Inv numConsumers numProducers k)
      (Crew.total (Thread.weight k)) (fun _ => false) 0 (fun _ _ _ h hstep => h.step hfits hstep)
      (fun _ _ _ h hstep => h.weight_step hstep) (Inv.start hfits hstart) hrun
    obtain ⟨block, g_cbuffer, -, -, rfl⟩ := hstart
    rw [weight_initial] at hrank
    omega
  · intro hstuck
    have hall := fun i p => @of_stuck _ i p _ _ _ hfits hreached hstuck
    -- No thread is between two waits, so a place that is not free is filled.
    have hplace : c'.total Thread.place = 0 := by
      refine Crew.total_eq_zero fun i p hget => ?_
      rcases hall i p hget with rfl | rfl | ⟨n, message, rfl, -⟩ | ⟨n, message, rfl, -⟩ <;> rfl
    have hmessage : c'.total Thread.message = 0 := by
      refine Crew.total_eq_zero fun i p hget => ?_
      rcases hall i p hget with rfl | rfl | ⟨n, message, rfl, -⟩ | ⟨n, message, rfl, -⟩ <;> rfl
    have hplaces := hinv.places
    have hmessages := hinv.messages
    have hwritten := hinv.written
    have hreadAll := hinv.readAll
    -- A consumer that waits has read all there is, so the producers have done their turns.
    have hwrite : c'.total (Thread.toWrite k) = 0 ∨ c'.shared.write_sem = 0 := by
      by_cases hzero : c'.shared.write_sem = 0
      · exact Or.inr hzero
      · refine Or.inl (Crew.total_eq_zero fun i p hget => ?_)
        rcases hall i p hget with rfl | rfl | ⟨n, message, rfl, hsem⟩ | ⟨n, message, rfl, -⟩
        · rfl
        · rfl
        · exact absurd hsem hzero
        · rfl
    have hread : c'.total (Thread.toRead k) = 0 ∨ c'.shared.read_sem = 0 := by
      by_cases hzero : c'.shared.read_sem = 0
      · exact Or.inr hzero
      · refine Or.inl (Crew.total_eq_zero fun i p hget => ?_)
        rcases hall i p hget with rfl | rfl | ⟨n, message, rfl, -⟩ | ⟨n, message, rfl, -, hsem⟩
        · rfl
        · rfl
        · rfl
        · exact absurd hsem hzero
    have hnothing : k = 0 → numConsumers * k = 0 ∧ numProducers * k = 0 := by
      rintro rfl
      exact ⟨Nat.mul_zero _, Nat.mul_zero _⟩
    have hmin : c'.shared.read.length = min (numConsumers * k) (numProducers * k) := by omega
    refine ⟨hmin.trans (Nat.mul_min_mul_right _ _ _), fun hsame => ?_⟩
    subst hsame
    obtain ⟨queue, hqueue⟩ := hinv.queue
    have hwrote := hqueue.length_wrote
    have hnil : queue = [] := List.eq_nil_of_length_eq_zero (by omega)
    refine ⟨?_, fun p hp => ?_⟩
    · rw [hqueue.wrote, hnil, List.append_nil]
    · obtain ⟨i, hget⟩ := List.getElem?_of_mem hp
      rcases hall i p hget with rfl | rfl | ⟨n, message, rfl, -⟩ | ⟨n, message, rfl, hlt, -⟩
      · exact Or.inl rfl
      · exact Or.inr rfl
      · have hle := Crew.le_total (Thread.toWrite k) hget
        have hlt : n < k := (hinv.relies i _ hget).1
        simp only [Thread.toWrite] at hle
        omega
      · have hle := Crew.le_total (Thread.toRead k) hget
        simp only [Thread.toRead] at hle
        omega

/-- The message of one producer reaches the one consumer. -/
theorem every_turn_is_taken_of_one : ∃ c',
    (machine 1 1 1).run (initial emptyBuffer 1 1 1) handOver = some c' ∧
      c'.shared.read = c'.shared.wrote ∧ c'.shared.read = [[7, 0, 0, 0]] ∧
      ∀ p ∈ c'.threads, p = .producer .returned ∨ p = .consumer .returned := by
  have hrun : (machine 1 1 1).run (initial emptyBuffer 1 1 1) handOver =
      some ⟨⟨.free, ⟨4, 0, 8, [7, 0, 0, 0, 0, 0, 0, 0]⟩, 1, 0, [[7, 0, 0, 0]], [[7, 0, 0, 0]]⟩,
        [.consumer .returned, .producer .returned]⟩ := rfl
  have hresult := (every_turn_is_taken (by decide) start_emptyBuffer hrun).2 fun i a p hget _ => ?_
  · exact ⟨_, hrun, (hresult.2 rfl).1, rfl, (hresult.2 rfl).2⟩
  · have hp := List.mem_of_getElem? hget
    simp only [List.mem_cons, List.not_mem_nil, or_false] at hp
    rcases hp with rfl | rfl <;> simp [act]

end Ex4

end Sys
end InfinityLabs
