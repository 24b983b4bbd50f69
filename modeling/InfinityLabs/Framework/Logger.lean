import InfinityLabs.Lib.Crew

/-!
# The logger

`framework/src/logger.cpp`: `Log` puts a message into a waitable queue, and one thread
writes the messages to the file.  The destructor tells that thread to stop and joins it; the
thread stops once it finds the queue empty, and not before.

The writer is the thread 0 of the crew, the owner of the logger, who destroys it, the thread 1;
the others call `Log` and `SetLevel`, any number of times.  No call is made once the
destructor has returned.  A call of the queue is one step, as it is made under its mutex.
-/

namespace InfinityLabs
namespace Framework
namespace Logger

open Lib

/-! ## The program -/

/-- `LogLevel`. -/
inductive LogLevel where
  | ERROR
  | WARNING
  | DEBUGING
  | INFO
  deriving DecidableEq, Repr

/-- The value of the enumerator. -/
def LogLevel.value : LogLevel → Nat
  | .ERROR => 0
  | .WARNING => 1
  | .DEBUGING => 2
  | .INFO => 3

/-- `LogArgs`, but for the place of the call, which nothing reads. -/
structure LogArgs where
  msg : String
  level : LogLevel
  deriving DecidableEq, Repr

/-- `LevelToString`. -/
def levelToString : LogLevel → String
  | .ERROR => "ERROR"
  | .WARNING => "WARNING"
  | .DEBUGING => "DEBUG"
  | .INFO => "INFO"

/-- `LevelToColor`. -/
def levelToColor : LogLevel → String
  | .ERROR => "\x1b[31m"
  | .WARNING => "\x1b[33m"
  | .INFO => "\x1b[32m"
  | .DEBUGING => "\x1b[36m"

/-- The line of the file for a message. -/
def line (args : LogArgs) : String :=
  levelToColor args.level ++ "[" ++ levelToString args.level ++ "]" ++ "\x1b[0m " ++ args.msg ++ "\n"

/-- The members of the logger.  Beside them: whether the writer has returned, all messages
that were put into the queue, and how many they were when the destructor began. -/
structure Shared where
  m_is_alive : Bool
  m_queue : List LogArgs
  m_curr_level : LogLevel
  m_file : List String
  writerEnded : Bool
  pushed : List LogArgs
  stopped : Option Nat
  deriving DecidableEq, Repr

/-- Where `WriteToFile` stands: before it reads `m_is_alive`, before it asks whether the queue is
empty, before the pop, before the write, and returned with the number of its writes. -/
inductive Writer where
  | test (entriesWritten : Nat)
  | testEmpty (entriesWritten : Nat)
  | pop (entriesWritten : Nat)
  | write (args : LogArgs) (entriesWritten : Nat)
  | returned (entriesWritten : Nat)
  deriving DecidableEq, Repr

/-- Where the owner stands: before the destructor, at its join, and behind it. -/
inductive Owner where
  | alive
  | join
  | closed
  deriving DecidableEq, Repr

/-- A thread. -/
inductive Thread where
  | writer (at_ : Writer)
  | owner (at_ : Owner)
  | idle
  | push (args : LogArgs)
  deriving DecidableEq, Repr

/-- The next step of a thread, a call of `Log` with the time stamp that it prints, or a call of
`SetLevel`. -/
inductive Choice where
  | go
  | log (timeStamp msg : String) (level : LogLevel)
  | setLevel (level : LogLevel)
  deriving DecidableEq, Repr

/-- A step of a thread.  `pop` waits for a message and returns `false` if there is none when its
time is over. -/
def act (_ : Nat) : Choice → Shared → Thread → Option (Shared × Thread)
  | .go, s, .writer (.test n) =>
      some (s, .writer (if s.m_is_alive then .pop n else .testEmpty n))
  | .go, s, .writer (.testEmpty n) =>
      if s.m_queue = [] then some ({ s with writerEnded := true }, .writer (.returned n))
      else some (s, .writer (.pop n))
  | .go, s, .writer (.pop n) =>
      match s.m_queue with
      | [] => some (s, .writer (.test n))
      | args :: rest => some ({ s with m_queue := rest }, .writer (.write args n))
  | .go, s, .writer (.write args n) =>
      some ({ s with m_file := s.m_file ++ [line args] }, .writer (.test (n + 1)))
  | .go, s, .owner .alive =>
      some ({ s with m_is_alive := false, stopped := some s.pushed.length }, .owner .join)
  | .go, s, .owner .join => if s.writerEnded then some (s, .owner .closed) else none
  | .log timeStamp msg level, s, .idle =>
      if level.value > s.m_curr_level.value then some (s, .idle)
      else some (s, .push ⟨timeStamp ++ ": " ++ msg, level⟩)
  | .setLevel level, s, .idle => some ({ s with m_curr_level := level }, .idle)
  | .go, s, .push args =>
      some ({ s with m_queue := s.m_queue ++ [args], pushed := s.pushed ++ [args] }, .idle)
  | _, _, _ => none

/-- The state that the constructor leaves, with as many threads that log. -/
def initial (numLoggers : Nat) : Crew Shared Thread where
  shared :=
    { m_is_alive := true, m_queue := [], m_curr_level := .DEBUGING, m_file := [],
      writerEnded := false, pushed := [], stopped := none }
  threads := .writer (.test 0) :: .owner .alive :: List.replicate numLoggers .idle

/-- The program. -/
def machine (numLoggers : Nat) : Machine (Crew Shared Thread) (Nat × Choice) :=
  Crew.machine (· = initial numLoggers) act

/-! ## What every run keeps -/

/-- The message that the writer has taken and not written yet. -/
def Writer.inHand : Writer → List LogArgs
  | .write args _ => [args]
  | _ => []

/-- The number of the writes. -/
def Writer.entriesWritten : Writer → Nat
  | .test n | .testEmpty n | .pop n | .write _ n | .returned n => n

/-- The writer has returned. -/
def Writer.hasReturned : Writer → Bool
  | .returned _ => true
  | _ => false

/-- The file has the messages that were put into the queue first, the writer has the next one in
hand, and the queue has the rest. -/
def Accounts (s : Shared) (w : Writer) : Prop :=
  ∃ written, s.pushed = written ++ (w.inHand ++ s.m_queue) ∧ s.m_file = written.map line ∧
    w.entriesWritten = written.length

/-- What a thread relies on; the writer asks whether the queue is empty only once it is to
stop. -/
def Relies (i : Nat) (s : Shared) : Thread → Prop
  | .writer w =>
      i = 0 ∧ Accounts s w ∧ (∀ n, w = .testEmpty n → s.m_is_alive = false) ∧
        w.hasReturned = s.writerEnded
  | .owner .alive => i = 1 ∧ s.m_is_alive = true
  | .owner .join => i = 1 ∧ s.m_is_alive = false
  | .owner .closed => i = 1 ∧ s.m_is_alive = false ∧ s.writerEnded = true
  | .idle => 2 ≤ i
  | .push _ => 2 ≤ i

/-- The state of the program: once the destructor has begun, the messages until then are counted,
and a writer that has returned has written them. -/
structure Inv (c : Crew Shared Thread) : Prop where
  length : 0 < c.threads.length
  relies : c.Each Relies
  alive : c.shared.m_is_alive = true → c.shared.stopped = none ∧ c.shared.writerEnded = false
  stopped : c.shared.m_is_alive = false → ∃ k, c.shared.stopped = some k ∧
    k ≤ c.shared.pushed.length ∧ (c.shared.writerEnded = true → k ≤ c.shared.m_file.length)

variable {numLoggers i : Nat} {a : Choice} {s s' : Shared} {p p' : Thread}
  {c c' : Crew Shared Thread}

/-- The steps of `act`, one constructor for each. -/
inductive Step (s : Shared) : Choice → Thread → Shared → Thread → Prop
  | testAlive (n : Nat) (halive : s.m_is_alive = true) :
      Step s .go (.writer (.test n)) s (.writer (.pop n))
  | testStopped (n : Nat) (halive : s.m_is_alive = false) :
      Step s .go (.writer (.test n)) s (.writer (.testEmpty n))
  | finish (n : Nat) (hempty : s.m_queue = []) :
      Step s .go (.writer (.testEmpty n)) { s with writerEnded := true } (.writer (.returned n))
  | more (n : Nat) (hempty : s.m_queue ≠ []) :
      Step s .go (.writer (.testEmpty n)) s (.writer (.pop n))
  | timeout (n : Nat) (hempty : s.m_queue = []) :
      Step s .go (.writer (.pop n)) s (.writer (.test n))
  | pop (n : Nat) (args : LogArgs) (rest : List LogArgs) (hqueue : s.m_queue = args :: rest) :
      Step s .go (.writer (.pop n)) { s with m_queue := rest } (.writer (.write args n))
  | write (args : LogArgs) (n : Nat) :
      Step s .go (.writer (.write args n)) { s with m_file := s.m_file ++ [line args] }
        (.writer (.test (n + 1)))
  | destroy :
      Step s .go (.owner .alive) { s with m_is_alive := false, stopped := some s.pushed.length }
        (.owner .join)
  | join (hended : s.writerEnded = true) : Step s .go (.owner .join) s (.owner .closed)
  | drop (timeStamp msg : String) (level : LogLevel)
      (hlevel : level.value > s.m_curr_level.value) :
      Step s (.log timeStamp msg level) .idle s .idle
  | log (timeStamp msg : String) (level : LogLevel)
      (hlevel : ¬ level.value > s.m_curr_level.value) :
      Step s (.log timeStamp msg level) .idle s (.push ⟨timeStamp ++ ": " ++ msg, level⟩)
  | setLevel (level : LogLevel) :
      Step s (.setLevel level) .idle { s with m_curr_level := level } .idle
  | push (args : LogArgs) :
      Step s .go (.push args)
        { s with m_queue := s.m_queue ++ [args], pushed := s.pushed ++ [args] } .idle

/-- There are no other steps. -/
theorem step_of_act (hact : act i a s p = some (s', p')) : Step s a p s' p' := by
  unfold act at hact
  split at hact
  · cases halive : s.m_is_alive with
    | true =>
        simp only [halive, if_true] at hact
        cases hact
        exact .testAlive _ halive
    | false =>
        simp only [halive, Bool.false_eq_true, if_false] at hact
        cases hact
        exact .testStopped _ halive
  · split at hact
    case isTrue hempty => cases hact; exact .finish _ hempty
    case isFalse hempty => cases hact; exact .more _ hempty
  · split at hact
    · rename_i hempty
      cases hact
      exact .timeout _ hempty
    · rename_i args rest hqueue
      cases hact
      exact .pop _ args rest hqueue
  · cases hact
    exact .write _ _
  · cases hact
    exact .destroy
  · split at hact
    case isTrue hended => cases hact; exact .join hended
    case isFalse => cases hact
  · split at hact
    case isTrue hlevel => cases hact; exact .drop _ _ _ hlevel
    case isFalse hlevel => cases hact; exact .log _ _ _ hlevel
  · cases hact
    exact .setLevel _
  · cases hact
    exact .push _
  · cases hact

/-- The thread of a step goes on to find what it relies on. -/
theorem relies_own (h : Relies i s p) (hact : act i a s p = some (s', p')) :
    Relies i s' p' := by
  cases step_of_act hact with
  | testAlive n hrunning =>
      exact ⟨h.1, h.2.1, nofun, h.2.2.2⟩
  | testStopped n hstopped =>
      exact ⟨h.1, h.2.1, fun _ _ => hstopped, h.2.2.2⟩
  | finish n hempty => exact ⟨h.1, h.2.1, nofun, rfl⟩
  | more n hempty => exact ⟨h.1, h.2.1, nofun, h.2.2.2⟩
  | timeout n hempty => exact ⟨h.1, h.2.1, nofun, h.2.2.2⟩
  | pop n args rest hqueue =>
      obtain ⟨hi, ⟨written, hpushed, hfile, hn⟩, -, hended⟩ := h
      refine ⟨hi, ⟨written, ?_, hfile, hn⟩, nofun, hended⟩
      rw [hpushed, hqueue]
      rfl
  | write args n =>
      obtain ⟨hi, ⟨written, hpushed, hfile, hn⟩, -, hended⟩ := h
      refine ⟨hi, ⟨written ++ [args], ?_, ?_, ?_⟩, nofun, hended⟩
      · simp [hpushed, Writer.inHand]
      · simp [hfile]
      · simpa [Writer.entriesWritten] using hn
  | destroy => exact ⟨h.1, rfl⟩
  | join hended => exact ⟨h.1, h.2, hended⟩
  | _ => exact h

/-- What the threads beside the writer rely on is whether it is to stop and whether it has. -/
theorem relies_congr {j : Nat} {q : Thread} (hq : Relies j s q) (hwriter : ∀ w, q ≠ .writer w)
    (halive : s'.m_is_alive = s.m_is_alive)
    (hended : s.writerEnded = true → s'.writerEnded = true) : Relies j s' q := by
  match q, hq with
  | .writer w, _ => exact absurd rfl (hwriter w)
  | .owner .alive, hq => exact ⟨hq.1, halive.trans hq.2⟩
  | .owner .join, hq => exact ⟨hq.1, halive.trans hq.2⟩
  | .owner .closed, hq => exact ⟨hq.1, halive.trans hq.2.1, hended hq.2.2⟩
  | .idle, hq => exact hq
  | .push args, hq => exact hq

/-- There is one writer. -/
theorem not_writer {j : Nat} {q : Thread} {w : Writer} (hne : j ≠ i)
    (h : Relies i s (.writer w)) (hq : Relies j s q) : ∀ w', q ≠ .writer w' := by
  rintro w' rfl
  exact hne (hq.1.trans h.1.symm)

/-- So do the other threads. -/
theorem relies_others {j : Nat} {q : Thread} (hne : j ≠ i) (h : Relies i s p)
    (hq : Relies j s q) (hact : act i a s p = some (s', p')) : Relies j s' q := by
  cases step_of_act hact with
  | finish n hempty => exact relies_congr hq (not_writer hne h hq) rfl fun _ => rfl
  | pop n args rest hqueue => exact relies_congr hq (not_writer hne h hq) rfl id
  | write args n => exact relies_congr hq (not_writer hne h hq) rfl id
  | destroy =>
      match q, hq with
      | .writer w, hq => exact ⟨hq.1, hq.2.1, fun _ _ => rfl, hq.2.2.2⟩
      | .owner .alive, hq => exact absurd (hq.1.trans h.1.symm) hne
      | .owner .join, hq => exact absurd (hq.1.trans h.1.symm) hne
      | .owner .closed, hq => exact absurd (hq.1.trans h.1.symm) hne
      | .idle, hq => exact hq
      | .push args, hq => exact hq
  | setLevel level =>
      match q, hq with
      | .writer w, hq => exact hq
      | .owner w, hq => exact relies_congr hq nofun rfl id
      | .idle, hq => exact hq
      | .push args, hq => exact hq
  | push args =>
      match q, hq with
      | .writer w, hq =>
          obtain ⟨hj, ⟨written, hpushed, hfile, hn⟩, hasks, hended⟩ := hq
          refine ⟨hj, ⟨written, ?_, hfile, hn⟩, hasks, hended⟩
          simp [hpushed]
      | .owner w, hq => exact relies_congr hq nofun rfl id
      | .idle, hq => exact hq
      | .push args, hq => exact hq
  | _ => exact hq

namespace Inv

/-- What the destructor counts, over a step. -/
theorem stopped_step (h : Inv c) (hstep : (machine numLoggers).step c (i, a) = some c') :
    (c'.shared.m_is_alive = true →
        c'.shared.stopped = none ∧ c'.shared.writerEnded = false) ∧
      (c'.shared.m_is_alive = false → ∃ k, c'.shared.stopped = some k ∧
        k ≤ c'.shared.pushed.length ∧
        (c'.shared.writerEnded = true → k ≤ c'.shared.m_file.length)) := by
  obtain ⟨p, s', p', hget, hact, rfl⟩ := Crew.step_eq_some_iff.mp hstep
  have hrelies := h.relies i p hget
  cases step_of_act hact with
  | finish n hempty =>
      -- the queue is empty, so all that was put into it is written
      obtain ⟨-, ⟨written, hpushed, hfile, -⟩, hasks, -⟩ := hrelies
      have hstopped := hasks n rfl
      obtain ⟨k, hk, hle, -⟩ := h.stopped hstopped
      refine ⟨fun halive => absurd (hstopped.symm.trans halive) Bool.false_ne_true, fun _ =>
        ⟨k, hk, hle, fun _ => ?_⟩⟩
      have hlength := congrArg List.length hpushed
      simp only [Writer.inHand, hempty, List.append_nil] at hlength
      rw [hfile, List.length_map, ← hlength]
      exact hle
  | destroy =>
      have hnone := (h.alive hrelies.2).2
      refine ⟨nofun, fun _ => ⟨_, rfl, Nat.le_refl _, fun hended => ?_⟩⟩
      exact absurd (hnone.symm.trans hended) Bool.false_ne_true
  | write args n =>
      refine ⟨h.alive, fun hstopped => ?_⟩
      obtain ⟨k, hk, hle, hfile⟩ := h.stopped hstopped
      refine ⟨k, hk, hle, fun hended => ?_⟩
      rw [List.length_append]
      exact Nat.le_add_right_of_le (hfile hended)
  | push args =>
      refine ⟨h.alive, fun hstopped => ?_⟩
      obtain ⟨k, hk, hle, hfile⟩ := h.stopped hstopped
      refine ⟨k, hk, ?_, hfile⟩
      rw [List.length_append]
      exact Nat.le_add_right_of_le hle
  | _ => exact ⟨h.alive, h.stopped⟩

/-- A step keeps it all. -/
theorem step (h : Inv c) (hstep : (machine numLoggers).step c (i, a) = some c') : Inv c' := by
  obtain ⟨halive, hstopped⟩ := h.stopped_step hstep
  refine ⟨(Crew.length_of_step hstep).symm ▸ h.length, ?_, halive, hstopped⟩
  exact h.relies.step (fun p s' p' _ hp hact => relies_own hp hact)
    (fun p s' p' j q hne _ _ hp hq hact => relies_others hne hp hq hact) hstep

/-- At the start the writer is about to look, and nothing is in the queue. -/
theorem start : Inv (initial numLoggers) := by
  refine ⟨by simp [initial], fun i p hget => ?_, fun _ => ⟨rfl, rfl⟩, fun h => by cases h⟩
  match i, hget with
  | 0, hget =>
      obtain rfl := Option.some.inj hget
      exact ⟨rfl, ⟨[], rfl, rfl, rfl⟩, nofun, rfl⟩
  | 1, hget =>
      obtain rfl := Option.some.inj hget
      exact ⟨rfl, rfl⟩
  | i + 2, hget =>
      have hp := (List.mem_replicate.mp (List.mem_of_getElem? hget)).2
      rw [hp]
      exact Nat.le_add_left 2 i

end Inv

/-- Every run keeps the invariant. -/
theorem inv_of_reached (h : (machine numLoggers).Reached c) : Inv c :=
  Machine.ReachedBy.invariant (fun _ hstart => hstart ▸ Inv.start) (fun _ _ _ h _ => h.step) h

/-- The thread 0 is the writer. -/
theorem Inv.exists_writer (h : Inv c) :
    ∃ w, c.threads[0]? = some (.writer w) ∧ Relies 0 c.shared (.writer w) := by
  have hget := List.getElem?_eq_getElem h.length
  have hrelies := h.relies 0 _ hget
  have hlength := h.length
  match hp : c.threads[0], hrelies with
  | .writer w, hrelies => exact ⟨w, by rw [hget, hp], hrelies⟩
  | .owner .alive, hrelies => exact absurd hrelies.1 (by decide)
  | .owner .join, hrelies => exact absurd hrelies.1 (by decide)
  | .owner .closed, hrelies => exact absurd hrelies.1 (by decide)
  | .idle, hrelies => exact absurd (show 2 ≤ 0 from hrelies) (by decide)
  | .push args, hrelies => exact absurd (show 2 ≤ 0 from hrelies) (by decide)

/-! ## The results -/

/-- **The file has the messages in the order of their pushes**, each once, up to some point; where
the destructor has returned it has all that were put into the queue before it began. -/
theorem messages_written_in_order (h : (machine numLoggers).Reached c) :
    ∃ written unwritten, c.shared.pushed = written ++ unwritten ∧
      c.shared.m_file = written.map line ∧
      (.owner .closed ∈ c.threads → ∃ k, c.shared.stopped = some k ∧ k ≤ written.length) := by
  have hinv := inv_of_reached h
  obtain ⟨w, -, -, ⟨written, hpushed, hfile, -⟩, -⟩ := hinv.exists_writer
  refine ⟨written, _, hpushed, hfile, fun hclosed => ?_⟩
  obtain ⟨i, hget⟩ := List.getElem?_of_mem hclosed
  obtain ⟨-, hstopped, hended⟩ := hinv.relies i _ hget
  obtain ⟨k, hk, -, hle⟩ := hinv.stopped hstopped
  have hall := hle hended
  rw [hfile, List.length_map] at hall
  exact ⟨k, hk, hall⟩

/-- How many steps the writer has before it, once it is to stop and nobody logs. -/
def Writer.steps (queued : Nat) : Writer → Nat
  | .test _ => 4 * queued + 2
  | .testEmpty _ => 4 * queued + 1
  | .pop _ => if queued = 0 then 3 else 4 * queued
  | .write _ _ => 4 * queued + 3
  | .returned _ => 0

/-- A step of the writer alone, once it is to stop: it has one step less before it, and where it
returns the queue is empty. -/
theorem writer_step (numLoggers : Nat) {w : Writer}
    (hget : c.threads[0]? = some (.writer w))
    (hstopped : c.shared.m_is_alive = false) (hrunning : w.hasReturned = false) :
    ∃ c' w', (machine numLoggers).step c (0, .go) = some c' ∧
      c'.threads[0]? = some (.writer w') ∧ c'.shared.m_is_alive = false ∧
      c'.shared.pushed = c.shared.pushed ∧
      w.steps c.shared.m_queue.length = w'.steps c'.shared.m_queue.length + 1 ∧
      (w'.hasReturned = true → c'.shared.m_queue = []) := by
  have hlt : 0 < c.threads.length := (List.getElem?_eq_some_iff.mp hget).1
  have hstep : ∀ s w', act 0 .go c.shared (.writer w) = some (s, .writer w') →
      (machine numLoggers).step c (0, .go) =
        some { shared := s, threads := c.threads.set 0 (.writer w') } := fun s w' hact =>
    Crew.step_eq_some_iff.mpr ⟨_, s, _, hget, hact, rfl⟩
  have hset : ∀ w', (c.threads.set 0 (.writer w'))[0]? = some (.writer w') := fun w' =>
    List.getElem?_set_self hlt
  cases w with
  | returned n => cases hrunning
  | test n =>
      refine ⟨_, .testEmpty n, hstep c.shared _ ?_, hset _, hstopped, rfl, rfl, nofun⟩
      simp [act, hstopped]
  | testEmpty n =>
      by_cases hempty : c.shared.m_queue = []
      · refine ⟨_, .returned n, hstep { c.shared with writerEnded := true } _ ?_, hset _, hstopped,
          rfl, ?_, fun _ => hempty⟩
        · simp [act, hempty]
        · simp [Writer.steps, hempty]
      · refine ⟨_, .pop n, hstep c.shared _ ?_, hset _, hstopped, rfl, ?_, nofun⟩
        · simp [act, hempty]
        · simp [Writer.steps, hempty]
  | pop n =>
      cases hqueue : c.shared.m_queue with
      | nil =>
          refine ⟨_, .test n, hstep c.shared _ ?_, hset _, hstopped, rfl, ?_, nofun⟩
          · simp [act, hqueue]
          · simp [Writer.steps, hqueue]
      | cons args rest =>
          refine ⟨_, .write args n, hstep { c.shared with m_queue := rest } _ ?_, hset _, hstopped,
            rfl, ?_, nofun⟩
          · simp [act, hqueue]
          · simp only [Writer.steps, List.length_cons, Nat.add_one_ne_zero, if_false]
            omega
  | write args n =>
      refine ⟨_, .test (n + 1), hstep { c.shared with m_file := c.shared.m_file ++ [line args] } _
        rfl, hset _, hstopped, rfl, rfl, nofun⟩

/-- The writer alone comes to its end in so many steps. -/
theorem writer_ends (numLoggers : Nat) {w : Writer}
    (hget : c.threads[0]? = some (.writer w)) (hstopped : c.shared.m_is_alive = false)
    (hrunning : w.hasReturned = false) :
    ∃ c' w', (machine numLoggers).run c
        (List.replicate (w.steps c.shared.m_queue.length) (0, .go)) = some c' ∧
      c'.threads[0]? = some (.writer w') ∧ w'.hasReturned = true ∧ c'.shared.m_queue = [] ∧
      c'.shared.pushed = c.shared.pushed := by
  generalize hk : w.steps c.shared.m_queue.length = k
  induction k generalizing c w with
  | zero =>
      cases w with
      | returned n => cases hrunning
      | pop n =>
          simp only [Writer.steps] at hk
          split at hk <;> omega
      | _ => simp [Writer.steps] at hk
  | succ k ih =>
      obtain ⟨c₁, w₁, hstep, hget₁, hstopped₁, hpushed, hsteps, hempty⟩ :=
        writer_step numLoggers hget hstopped hrunning
      have hk₁ : w₁.steps c₁.shared.m_queue.length = k := by omega
      rw [List.replicate_succ, Machine.run, hstep]
      dsimp only
      cases hended : w₁.hasReturned with
      | false =>
          obtain ⟨c', w', hrun, hget', hended', hqueue, hpushed'⟩ := ih hget₁ hstopped₁ hended hk₁
          exact ⟨c', w', hrun, hget', hended', hqueue, hpushed'.trans hpushed⟩
      | true =>
          cases w₁ with
          | returned n =>
              obtain rfl : 0 = k := hk₁
              exact ⟨c₁, _, rfl, hget₁, rfl, hempty rfl, hpushed⟩
          | _ => cases hended

/-- **The destructor returns.**  Once it has told the writer to stop, the writer alone comes to
its end in so many steps, with every message that was put into the queue in the file; the join is
then possible. -/
theorem writer_drains (h : (machine numLoggers).Reached c) {w : Writer}
    (hget : c.threads[0]? = some (.writer w)) (hstopped : c.shared.m_is_alive = false)
    (hrunning : c.shared.writerEnded = false) :
    ∃ c', (machine numLoggers).run c
        (List.replicate (w.steps c.shared.m_queue.length) (0, .go)) = some c' ∧
      c'.shared.writerEnded = true ∧ c'.shared.m_queue = [] ∧
      c'.shared.m_file = c.shared.pushed.map line := by
  obtain ⟨-, -, -, hended⟩ := (inv_of_reached h).relies 0 _ hget
  obtain ⟨c', w', hrun, hget', hreturned, hqueue, hpushed⟩ :=
    writer_ends numLoggers hget hstopped (hended.trans hrunning)
  obtain ⟨-, ⟨written, hsplit, hfile, -⟩, -, hended'⟩ :=
    (inv_of_reached (Machine.Reached.run h hrun)).relies 0 _ hget'
  refine ⟨c', hrun, hended'.symm.trans hreturned, hqueue, ?_⟩
  cases w' with
  | returned n =>
      rw [hqueue] at hsplit
      simp only [Writer.inHand, List.append_nil] at hsplit
      rw [hfile, ← hpushed, hsplit]
  | _ => cases hreturned

/-! ## A sample run -/

/-- The message of a call. -/
def sampleArgs (msg : String) (level : LogLevel) : LogArgs := ⟨"t" ++ ": " ++ msg, level⟩

/-- Two threads log three messages, one of which is above the level; the destructor begins while
one message is in the queue, and another one comes after it. -/
def sampleRun : List (Nat × Choice) :=
  [(2, .log "t" "a" .ERROR), (2, .go), (3, .log "t" "b" .INFO), (0, .go),
    (3, .log "t" "c" .WARNING), (1, .go), (3, .go), (0, .go), (0, .go)]

theorem sampleRun_eq : (machine 2).run (initial 2) sampleRun = some
    { shared :=
        { m_is_alive := false, m_queue := [sampleArgs "c" .WARNING], m_curr_level := .DEBUGING,
          m_file := [line (sampleArgs "a" .ERROR)], writerEnded := false,
          pushed := [sampleArgs "a" .ERROR, sampleArgs "c" .WARNING], stopped := some 1 }
      threads := [.writer (.test 1), .owner .join, .idle, .idle] } := rfl

/-- The rest of the run, up to the end of the destructor. -/
theorem messages_written_in_order_sample : ∃ c,
    (machine 2).run (initial 2)
      (sampleRun ++ List.replicate 6 (0, .go) ++ [(1, .go)]) = some c ∧
    .owner .closed ∈ c.threads ∧ ∃ written unwritten, c.shared.pushed = written ++ unwritten ∧
      c.shared.m_file = written.map line := by
  have hrun : (machine 2).run (initial 2)
      (sampleRun ++ List.replicate 6 (0, .go) ++ [(1, .go)]) = some
      { shared :=
          { m_is_alive := false, m_queue := [], m_curr_level := .DEBUGING,
            m_file := [line (sampleArgs "a" .ERROR), line (sampleArgs "c" .WARNING)],
            writerEnded := true,
            pushed := [sampleArgs "a" .ERROR, sampleArgs "c" .WARNING], stopped := some 1 }
        threads := [.writer (.returned 2), .owner .closed, .idle, .idle] } := rfl
  obtain ⟨written, unwritten, hpushed, hfile, -⟩ :=
    messages_written_in_order (Machine.Reached.run (.start rfl) hrun)
  exact ⟨_, hrun, by simp, written, unwritten, hpushed, hfile⟩

theorem writer_drains_sample : ∃ c c', (machine 2).run (initial 2) sampleRun = some c ∧
    (machine 2).run c (List.replicate 6 (0, .go)) = some c' ∧
    c'.shared.m_file = c.shared.pushed.map line := by
  obtain ⟨c', hrun, -, -, hfile⟩ := writer_drains (Machine.Reached.run (.start rfl) sampleRun_eq)
    rfl rfl rfl
  exact ⟨_, c', sampleRun_eq, hrun, hfile⟩

end Logger
end Framework
end InfinityLabs
