import InfinityLabs.Lib.ByteFields
import InfinityLabs.Lib.Cells
import InfinityLabs.Lib.Runs

/-!
# The directory monitor

`framework/src/dir_monitor.cpp`: a thread reads what inotify reports of a directory and broadcasts
the path of every file that comes into it.

A read brings one record or more, each as long as its name needs, into a buffer that still has the
bytes of the reads before; the loop finds its way by the lengths in the records.  The destructor
clears `m_isRunning` and takes the watch away; inotify reports that too, and so the thread, which
may be waiting in a read, comes to look at `m_isRunning` again.
-/

namespace InfinityLabs
namespace Framework
namespace DirMonitor

open Lib

/-! ## Records -/

/-- A `std::string`. -/
abbrev Text := List UInt8

/-- `EVENT_BUFFER_SIZE`. -/
def EVENT_BUFFER_SIZE : Nat := 4096

/-- `sizeof(struct inotify_event)`: `wd`, `mask`, `cookie` and `len`, of four bytes each; the name
comes behind it. -/
def EVENT_SIZE : Nat := 16

/-- `NAME_MAX`. -/
def NAME_MAX : Nat := 255

/-- An event, with the name of the file in the directory, or without one, and how many more null
bytes than the one at its end the name gets. -/
structure Event where
  wd : Nat
  mask : Nat
  cookie : Nat
  name : Text
  padding : Nat
  wd_lt : wd < 256 ^ 4
  mask_lt : mask < 256 ^ 4
  cookie_lt : cookie < 256 ^ 4
  name_length : name.length ≤ NAME_MAX
  name_bytes : ∀ b ∈ name, b ≠ 0 ∧ b ≠ 47
  padding_lt : padding < EVENT_SIZE

/-- The bytes behind the record. -/
def Event.nameField (e : Event) : List UInt8 :=
  if e.name = [] then [] else e.name ++ List.replicate (e.padding + 1) 0

/-- What a read brings of an event. -/
def Event.encode (e : Event) : List UInt8 :=
  toLittleEndian 4 e.wd ++ (toLittleEndian 4 e.mask ++ (toLittleEndian 4 e.cookie ++
    (toLittleEndian 4 e.nameField.length ++ e.nameField)))

/-- What a read brings of several events. -/
def encodeEvents (events : List Event) : List UInt8 :=
  events.flatMap Event.encode

/-! ## The loop -/

/-- `std::filesystem::path(dirPath) / name`. -/
def joinPath (dirPath name : Text) : Text :=
  if name.head? = some 47 then name
  else if dirPath = [] ∨ dirPath.getLast? = some 47 then dirPath ++ name
  else dirPath ++ 47 :: name

/-- `event->len` of the record at an offset of the buffer. -/
def eventLen (buffer : List UInt8) (offset : Nat) : Except Fault Nat :=
  if offset + EVENT_SIZE ≤ buffer.length then .ok (fieldAt buffer (offset + 12) 4)
  else .error .outOfBounds

/-- `event->name` of the record at an offset of the buffer, up to its null byte. -/
def eventName (buffer : List UInt8) (offset : Nat) : Except Fault Text :=
  let bytes := buffer.drop (offset + EVENT_SIZE)
  if 0 ∈ bytes then .ok (bytes.takeWhile (· ≠ 0)) else .error .outOfBounds

/-- The inner loop of `ListeningLoop`, from an offset on: the paths that it broadcasts. -/
def parseEvents (dirPath : Text) (buffer : List UInt8) (bytesRead offset : Nat) :
    Except Fault (List Text) :=
  if _hmore : offset < bytesRead then do
    let len ← eventLen buffer offset
    if 0 < len then
      let name ← eventName buffer offset
      let rest ← parseEvents dirPath buffer bytesRead (offset + (EVENT_SIZE + len))
      pure (joinPath dirPath name :: rest)
    else parseEvents dirPath buffer bytesRead (offset + (EVENT_SIZE + len))
  else pure []
termination_by bytesRead - offset
decreasing_by
  all_goals
    have : 0 < EVENT_SIZE := by decide
    omega

/-- The path that is broadcast for an event, if it has a name. -/
def Event.path? (dirPath : Text) (e : Event) : Option Text :=
  if e.name = [] then none else some (joinPath dirPath e.name)

/-! ## What a record says -/

namespace Event

variable (e : Event)

theorem length_nameField_le : e.nameField.length ≤ NAME_MAX + EVENT_SIZE := by
  have hname := e.name_length
  have hpadding := e.padding_lt
  rw [nameField]
  split
  · exact Nat.zero_le _
  · rw [List.length_append, List.length_replicate]
    omega

theorem nameField_length_pos : 0 < e.nameField.length ↔ e.name ≠ [] := by
  rw [nameField]
  split
  · rename_i hname
    simp [hname]
  · rename_i hname
    rw [List.length_append, List.length_replicate]
    exact iff_of_true (by omega) hname

theorem length_encode : e.encode.length = EVENT_SIZE + e.nameField.length := by
  simp only [encode, List.length_append, length_toLittleEndian, EVENT_SIZE]
  omega

variable {e}

/-- The length in a record. -/
theorem eventLen_eq (front back : List UInt8) :
    eventLen (front ++ (e.encode ++ back)) front.length = .ok e.nameField.length := by
  have hroom : front.length + EVENT_SIZE ≤ (front ++ (e.encode ++ back)).length := by
    rw [List.length_append, List.length_append, length_encode]
    omega
  have hsplit : front ++ (e.encode ++ back) =
      (front ++ toLittleEndian 4 e.wd ++ toLittleEndian 4 e.mask ++ toLittleEndian 4 e.cookie) ++
        (toLittleEndian 4 e.nameField.length ++ (e.nameField ++ back)) := by
    simp only [encode, List.append_assoc]
  have hlt : e.nameField.length < 256 ^ 4 :=
    Nat.lt_of_le_of_lt e.length_nameField_le (by decide)
  rw [eventLen, if_pos hroom, hsplit, fieldAt_append _ (length_toLittleEndian 4 _),
    littleEndian_toLittleEndian hlt]
  simp only [List.length_append, length_toLittleEndian]

/-- The name behind a record. -/
theorem eventName_eq (front back : List UInt8) (hname : e.name ≠ []) :
    eventName (front ++ (e.encode ++ back)) front.length = .ok e.name := by
  have hsplit : front ++ (e.encode ++ back) =
      (front ++ toLittleEndian 4 e.wd ++ toLittleEndian 4 e.mask ++ toLittleEndian 4 e.cookie ++
        toLittleEndian 4 e.nameField.length) ++ (e.nameField ++ back) := by
    simp only [encode, List.append_assoc]
  have hdrop : (front ++ (e.encode ++ back)).drop (front.length + EVENT_SIZE) =
      e.name ++ 0 :: (List.replicate e.padding 0 ++ back) := by
    rw [hsplit, List.drop_left' (by simp only [List.length_append, length_toLittleEndian]; rfl),
      nameField, if_neg hname, List.replicate_succ, List.append_assoc, List.cons_append]
  have htake :
      (e.name ++ 0 :: (List.replicate e.padding 0 ++ back)).takeWhile (· ≠ 0) = e.name := by
    rw [List.takeWhile_append_of_pos fun b hb => by simpa using (e.name_bytes b hb).1,
      List.takeWhile_cons_of_neg (by simp), List.append_nil]
  rw [eventName]
  simp only [hdrop]
  rw [if_pos (List.mem_append_right _ List.mem_cons_self), htake]

end Event

/-- **What was reported is read back**: from the bytes of the events, whatever the buffer has
behind them, the loop takes the paths of the events that have a name, in their order, and no access
is outside of the buffer. -/
theorem parseEvents_encodeEvents (dirPath : Text) (front : List UInt8) (events : List Event)
    (stale : List UInt8) :
    parseEvents dirPath (front ++ (encodeEvents events ++ stale))
      (front.length + (encodeEvents events).length) front.length =
        .ok (events.filterMap (Event.path? dirPath)) := by
  induction events generalizing front with
  | nil =>
      rw [parseEvents, dif_neg (by simp [encodeEvents])]
      rfl
  | cons e events ih =>
      have hcons : encodeEvents (e :: events) = e.encode ++ encodeEvents events := rfl
      have hmore : front.length < front.length + (encodeEvents (e :: events)).length := by
        rw [hcons, List.length_append, Event.length_encode, EVENT_SIZE]
        omega
      have hbuffer : front ++ (encodeEvents (e :: events) ++ stale) =
          front ++ (e.encode ++ (encodeEvents events ++ stale)) := by
        rw [hcons, List.append_assoc]
      -- the rest of the loop begins behind the event
      have hrest := ih (front ++ e.encode)
      rw [List.append_assoc, List.length_append, Event.length_encode] at hrest
      have hread : front.length + (encodeEvents (e :: events)).length =
          front.length + (EVENT_SIZE + e.nameField.length) + (encodeEvents events).length := by
        rw [hcons, List.length_append, Event.length_encode]
        omega
      rw [parseEvents, dif_pos hmore, hread, hbuffer, Event.eventLen_eq, ok_bind]
      by_cases hname : e.name = []
      · rw [if_neg (fun hpos => e.nameField_length_pos.mp hpos hname), hrest,
          List.filterMap_cons_none (by rw [Event.path?, if_pos hname])]
      · rw [if_pos (e.nameField_length_pos.mpr hname), Event.eventName_eq front _ hname, ok_bind,
          hrest, ok_bind, List.filterMap_cons_some (b := joinPath dirPath e.name)
            (by rw [Event.path?, if_neg hname])]
        rfl

/-! ## The monitor and its directory -/

/-- Where the thread of `ListeningLoop` stands. -/
inductive Listener where
  | notStarted
  | test
  | read
  | returned
  deriving DecidableEq, Repr

/-- How far `~DirMonitor` has come. -/
inductive Destructor where
  | notCalled
  | stopped
  | unwatched
  | joined
  deriving DecidableEq, Repr

/-- The monitor; the events that inotify holds for it; what it has broadcast, and whether it has
left its buffer.  `reported` is a history variable: all events, those that were read too. -/
structure Monitor where
  m_isRunning : Bool
  listener : Listener
  destructor : Destructor
  queue : List Event
  broadcast : List Text
  faulted : Bool
  reported : List Event

/-- What happens next: a call of `Run`, an event in the directory, a step of the thread, or one of
the destructor.  A read brings some of the events that are there; the rest of the buffer is as it
was. -/
inductive MonitorAction where
  | run
  | event (e : Event)
  | testRunning
  | read (count : Nat) (stale : List UInt8)
  | readFails
  | stop
  | removeWatch
  | join

/-- The step is one of the thread. -/
def MonitorAction.isListeners : MonitorAction → Bool
  | .testRunning => true
  | .read _ _ => true
  | .readFails => true
  | _ => false

namespace Monitor

/-- `IN_IGNORED`, which inotify reports when a watch is taken away. -/
def ignored : Event where
  wd := 1
  mask := 0x8000
  cookie := 0
  name := []
  padding := 0
  wd_lt := by decide
  mask_lt := by decide
  cookie_lt := by decide
  name_length := by decide
  name_bytes := by simp
  padding_lt := by decide

/-- inotify reports an event. -/
def report (s : Monitor) (e : Event) : Monitor :=
  { s with queue := s.queue ++ [e], reported := s.reported ++ [e] }

/-- The read, and the inner loop on what it brings. -/
def receive (dirPath : Text) (s : Monitor) (count : Nat) (stale : List UInt8) : Monitor :=
  let bytes := encodeEvents (s.queue.take count)
  match parseEvents dirPath (bytes ++ stale) bytes.length 0 with
  | .ok paths =>
      { s with
        listener := .test
        queue := s.queue.drop count
        broadcast := s.broadcast ++ paths }
  | .error _ => { s with faulted := true }

/-- One step. -/
def step (dirPath : Text) (s : Monitor) : MonitorAction → Option Monitor
  | .run =>
      if s.destructor = .notCalled then
        if s.m_isRunning then some s else some { s with m_isRunning := true, listener := .test }
      else none
  | .event e =>
      if s.destructor = .notCalled ∨ s.destructor = .stopped then some (s.report e) else none
  | .testRunning =>
      if s.listener = .test then
        some { s with listener := if s.m_isRunning then .read else .returned }
      else none
  | .read count stale =>
      if s.listener = .read ∧ 0 < count ∧ count ≤ s.queue.length ∧
          (encodeEvents (s.queue.take count)).length + stale.length = EVENT_BUFFER_SIZE then
        some (s.receive dirPath count stale)
      else none
  | .readFails => if s.listener = .read then some { s with listener := .test } else none
  | .stop =>
      if s.destructor = .notCalled then some { s with m_isRunning := false, destructor := .stopped }
      else none
  | .removeWatch =>
      if s.destructor = .stopped then some { s.report ignored with destructor := .unwatched }
      else none
  | .join =>
      if s.destructor = .unwatched ∧ (s.listener = .notStarted ∨ s.listener = .returned) then
        some { s with destructor := .joined }
      else none

/-- The monitor after its constructor. -/
def created : Monitor where
  m_isRunning := false
  listener := .notStarted
  destructor := .notCalled
  queue := []
  broadcast := []
  faulted := false
  reported := []

end Monitor

/-- A monitor of a directory, from its constructor on. -/
def monitorMachine (dirPath : Text) : Machine Monitor MonitorAction where
  start s := s = Monitor.created
  step := Monitor.step dirPath

variable {dirPath : Text} {s s' : Monitor} {a : MonitorAction}

/-- What holds at every moment: the events that were read are broadcast, the others are there; and
once the watch is gone, a thread that is going to read finds an event. -/
structure MonitorInv (dirPath : Text) (s : Monitor) : Prop where
  broadcast : ∃ taken, s.reported = taken ++ s.queue ∧
    s.broadcast = taken.filterMap (Event.path? dirPath)
  sound : s.faulted = false
  running : s.destructor ≠ .notCalled → s.m_isRunning = false
  started : s.m_isRunning = true → s.listener ≠ .notStarted
  wakes : s.destructor = .unwatched → s.listener = .read → s.queue ≠ []
  joined : s.destructor = .joined → s.listener = .notStarted ∨ s.listener = .returned

/-- A read takes events from the front. -/
theorem Monitor.receive_eq (dirPath : Text) (s : Monitor) (count : Nat) (stale : List UInt8) :
    s.receive dirPath count stale =
      { s with
        listener := .test
        queue := s.queue.drop count
        broadcast := s.broadcast ++ (s.queue.take count).filterMap (Event.path? dirPath) } := by
  have hparse := parseEvents_encodeEvents dirPath [] (s.queue.take count) stale
  rw [List.nil_append, List.length_nil, Nat.zero_add] at hparse
  rw [Monitor.receive]
  simp only [hparse]

/-- A report keeps what holds. -/
theorem MonitorInv.broadcast_report (h : MonitorInv dirPath s) (e : Event) :
    ∃ taken, (s.report e).reported = taken ++ (s.report e).queue ∧
      (s.report e).broadcast = taken.filterMap (Event.path? dirPath) := by
  obtain ⟨taken, hreported, hbroadcast⟩ := h.broadcast
  exact ⟨taken, by rw [Monitor.report, hreported, List.append_assoc], hbroadcast⟩

/-- A step keeps what holds. -/
theorem MonitorInv.step (h : MonitorInv dirPath s) (hstep : s.step dirPath a = some s') :
    MonitorInv dirPath s' := by
  cases a with
  | run =>
      simp only [Monitor.step] at hstep
      split at hstep
      · rename_i hnot
        split at hstep
        · obtain rfl := Option.some.inj hstep
          exact h
        · obtain rfl := Option.some.inj hstep
          exact ⟨h.broadcast, h.sound, fun hcalled => absurd hnot hcalled, fun _ => nofun,
            fun hun => absurd (hnot.symm.trans hun) nofun,
            fun hj => absurd (hnot.symm.trans hj) nofun⟩
      · cases hstep
  | event e =>
      simp only [Monitor.step] at hstep
      split at hstep
      · rename_i hwatched
        obtain rfl := Option.some.inj hstep
        exact ⟨h.broadcast_report e, h.sound, h.running, h.started,
          fun _ _ => by simp [Monitor.report], h.joined⟩
      · cases hstep
  | testRunning =>
      simp only [Monitor.step] at hstep
      split at hstep
      · rename_i htest
        obtain rfl := Option.some.inj hstep
        refine ⟨h.broadcast, h.sound, h.running, fun hrunning => ?_, fun hun hread => ?_,
          fun hj => ?_⟩
        · change (if s.m_isRunning then Listener.read else Listener.returned) ≠ .notStarted
          rw [if_pos hrunning]
          decide
        · have hstopped := h.running (by rw [hun]; decide)
          simp [hstopped] at hread
        · rcases h.joined hj with hl | hl
          · rw [hl] at htest; cases htest
          · rw [hl] at htest; cases htest
      · cases hstep
  | read count stale =>
      simp only [Monitor.step] at hstep
      split at hstep
      · rename_i hread
        rw [Monitor.receive_eq] at hstep
        obtain rfl := Option.some.inj hstep
        obtain ⟨taken, hreported, hbroadcast⟩ := h.broadcast
        refine ⟨⟨taken ++ s.queue.take count, ?_, ?_⟩, h.sound, h.running, fun _ => nofun,
          fun _ => nofun, fun hj => ?_⟩
        · rw [hreported, List.append_assoc, List.take_append_drop]
        · rw [hbroadcast, List.filterMap_append]
        · rcases h.joined hj with hl | hl
          · rw [hl] at hread; cases hread.1
          · rw [hl] at hread; cases hread.1
      · cases hstep
  | readFails =>
      simp only [Monitor.step] at hstep
      split at hstep
      · rename_i hread
        obtain rfl := Option.some.inj hstep
        refine ⟨h.broadcast, h.sound, h.running, fun _ => nofun, fun _ => nofun, fun hj => ?_⟩
        rcases h.joined hj with hl | hl
        · rw [hl] at hread; cases hread
        · rw [hl] at hread; cases hread
      · cases hstep
  | stop =>
      simp only [Monitor.step] at hstep
      split at hstep
      · obtain rfl := Option.some.inj hstep
        exact ⟨h.broadcast, h.sound, fun _ => rfl, nofun, nofun, nofun⟩
      · cases hstep
  | removeWatch =>
      simp only [Monitor.step] at hstep
      split at hstep
      · rename_i hstopped
        obtain rfl := Option.some.inj hstep
        exact ⟨h.broadcast_report Monitor.ignored, h.sound,
          fun _ => h.running (by rw [hstopped]; decide), h.started,
          fun _ _ => by simp [Monitor.report], nofun⟩
      · cases hstep
  | join =>
      simp only [Monitor.step] at hstep
      split at hstep
      · rename_i hjoin
        obtain rfl := Option.some.inj hstep
        exact ⟨h.broadcast, h.sound, fun _ => h.running (by rw [hjoin.1]; decide), h.started, nofun,
          fun _ => hjoin.2⟩
      · cases hstep

/-- What holds of a monitor at every moment. -/
theorem monitorInv_of_reached (h : (monitorMachine dirPath).Reached s) : MonitorInv dirPath s := by
  refine Machine.ReachedBy.invariant ?_ (fun _ _ _ hs _ hstep => hs.step hstep) h
  rintro s rfl
  exact ⟨⟨[], rfl, rfl⟩, rfl, fun hcalled => absurd rfl hcalled, nofun, nofun, nofun⟩

/-! ## What the subscribers hear, and the end of the thread -/

/-- **Every file that was read of is broadcast**, in the order of the reports and once, and the
thread never leaves its buffer; what was not read yet is still there to be read. -/
theorem files_are_broadcast (h : (monitorMachine dirPath).Reached s) :
    s.faulted = false ∧ ∃ taken, s.reported = taken ++ s.queue ∧
      s.broadcast = taken.filterMap (Event.path? dirPath) :=
  ⟨(monitorInv_of_reached h).sound, (monitorInv_of_reached h).broadcast⟩

/-- A file of one letter. -/
def sampleEvent (letter : UInt8) (hletter : letter ≠ 0 ∧ letter ≠ 47) : Event where
  wd := 1
  mask := 0x100
  cookie := 0
  name := [letter]
  padding := 14
  wd_lt := by decide
  mask_lt := by decide
  cookie_lt := by decide
  name_length := by simp [NAME_MAX]
  name_bytes := by simpa using hletter
  padding_lt := by decide

/-- One read brings two files of a directory. -/
theorem files_are_broadcast_sample :
    ∃ s : Monitor, s.broadcast = [[46, 47, 97], [46, 47, 98]] ∧ s.faulted = false := by
  let a := sampleEvent 97 (by decide)
  let b := sampleEvent 98 (by decide)
  obtain ⟨stale, hstale⟩ : ∃ stale : List UInt8, stale.length = 4032 :=
    ⟨List.replicate 4032 0, List.length_replicate⟩
  have hroom : (encodeEvents [a, b]).length + stale.length = EVENT_BUFFER_SIZE := by
    rw [hstale]
    decide
  have hrun : ((monitorMachine [46]).run Monitor.created
      [.run, .testRunning, .event a, .event b, .read 2 stale]).map (fun s => s.broadcast) =
        some [[46, 47, 97], [46, 47, 98]] := by
    simp [Machine.run, monitorMachine, Monitor.step, Monitor.receive_eq, Monitor.created,
      Monitor.report, hroom]
    decide
  obtain ⟨s, hreached, hshown⟩ := Machine.Reached.run_map (.start rfl) hrun
  exact ⟨s, hshown, (files_are_broadcast hreached).1⟩

/-- How many steps the thread has left once `m_isRunning` is cleared. -/
def Listener.rank : Listener → Nat
  | .read => 2
  | .test => 1
  | _ => 0

/-- The destructor has taken the watch away. -/
def Monitor.IsUnwatched (s : Monitor) : Prop :=
  s.destructor = .unwatched ∨ s.destructor = .joined

/-- Without a watch, every step of the thread brings it nearer to its end. -/
theorem MonitorInv.rank_step (h : MonitorInv dirPath s) (hun : s.IsUnwatched)
    (hstep : s.step dirPath a = some s') :
    s'.IsUnwatched ∧
      s'.listener.rank + (if a.isListeners then 1 else 0) ≤ s.listener.rank := by
  have hnot : s.destructor ≠ .notCalled ∧ s.destructor ≠ .stopped := by
    rcases hun with hd | hd <;> rw [hd] <;> decide
  have hstopped := h.running hnot.1
  cases a with
  | run => simp [Monitor.step, hnot.1] at hstep
  | event e => simp [Monitor.step, hnot.1, hnot.2] at hstep
  | testRunning =>
      simp only [Monitor.step] at hstep
      split at hstep
      · rename_i htest
        obtain rfl := Option.some.inj hstep
        refine ⟨hun, ?_⟩
        simp [htest, hstopped, Listener.rank, MonitorAction.isListeners]
      · cases hstep
  | read count stale =>
      simp only [Monitor.step] at hstep
      split at hstep
      · rename_i hread
        rw [Monitor.receive_eq] at hstep
        obtain rfl := Option.some.inj hstep
        refine ⟨hun, ?_⟩
        simp [hread.1, Listener.rank, MonitorAction.isListeners]
      · cases hstep
  | readFails =>
      simp only [Monitor.step] at hstep
      split at hstep
      · rename_i hread
        obtain rfl := Option.some.inj hstep
        refine ⟨hun, ?_⟩
        simp [hread, Listener.rank, MonitorAction.isListeners]
      · cases hstep
  | stop => simp [Monitor.step, hnot.1] at hstep
  | removeWatch => simp [Monitor.step, hnot.2] at hstep
  | join =>
      simp only [Monitor.step] at hstep
      split at hstep
      · obtain rfl := Option.some.inj hstep
        exact ⟨Or.inr rfl, Nat.le_refl _⟩
      · cases hstep

end DirMonitor
end Framework
end InfinityLabs
