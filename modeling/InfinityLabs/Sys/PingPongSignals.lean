import InfinityLabs.Lib.Runs

/-!
# Ping-pong by signals

`pingpong/ex2_parent.c` and `pingpong/ex2_child.c`: a process and its child take turns.  Each
sleeps in `pause` until a signal wakes it, prints, and sends the other one its signal.  A signal
that comes between the test of the flag and the next `pause` wakes nobody.
-/

namespace InfinityLabs
namespace Sys
namespace PingPongSignals

open Lib

/-! ## The processes -/

/-- The two processes. -/
inductive Side where
  | parent
  | child
  deriving DecidableEq, Repr

/-- The other process. -/
def Side.other : Side → Side
  | .parent => .child
  | .child => .parent

@[simp] theorem Side.other_other (me : Side) : me.other.other = me := by cases me <;> rfl

@[simp] theorem Side.other_ne (me : Side) : me.other ≠ me := by
  cases me <;> exact nofun

theorem Side.eq_other_of_ne {me who : Side} (hne : who ≠ me) : who = me.other := by
  cases me <;> cases who <;> first | rfl | exact absurd rfl hne

/-- What the process prints in its loop. -/
def Side.line : Side → String
  | .parent => "Parent got Pong, Sending Ping\n"
  | .child => "Child got Ping, Sending Pong\n"

/-- What the parent prints before its loop. -/
def firstLine : String := "Parent sending initial Ping\n"

/-- Where a process stands: before `SetHandler`, before the first print of the parent, about to
call `pause`, in `pause`, back from it, before it clears the flag, before the print, before
`kill`, and ended by a signal that it does not handle. -/
inductive Phase where
  | setHandler
  | start
  | pause
  | paused
  | check
  | clear
  | print
  | send
  | killed
  deriving DecidableEq, Repr

/-- A process, with its signal while that is pending and its flag `got_usr1` or `got_usr2`. -/
structure Process where
  phase : Phase
  pending : Bool
  got : Bool
  deriving DecidableEq, Repr

/-- A process goes on, or its pending signal is delivered. -/
inductive Act where
  | go
  | deliver
  deriving DecidableEq, Repr

/-- What a step does: the process after it, the lines it prints, and whether it sends the other
process its signal. -/
structure Effect where
  next : Process
  prints : List String := []
  kills : Bool := false

/-- The parent sends the first signal; the child goes to its loop. -/
def Side.afterSetHandler : Side → Phase
  | .parent => .start
  | .child => .pause

/-- A step of `main`. -/
def main (me : Side) (p : Process) : Option Effect :=
  match p.phase with
  | .setHandler => some { next := { p with phase := me.afterSetHandler } }
  | .start => some { next := { p with phase := .send }, prints := [firstLine] }
  | .pause => some { next := { p with phase := .paused } }
  | .paused => none
  | .check => some { next := { p with phase := if p.got then .clear else .pause } }
  | .clear => some { next := { p with phase := .print, got := false } }
  | .print => some { next := { p with phase := .send }, prints := [me.line] }
  | .send => some { next := { p with phase := .pause }, kills := true }
  | .killed => none

/-- The delivery of the signal: without a handler it ends the process, else `ParentHandler` or
`ChildHandler` sets the flag, and `pause` returns. -/
def Process.handle (p : Process) : Process :=
  match p.phase with
  | .setHandler => { p with phase := .killed, pending := false }
  | .paused => { phase := .check, pending := false, got := true }
  | _ => { p with pending := false, got := true }

/-- A step of a process, or of the system that delivers its signal. -/
def act (me : Side) (p : Process) : Act → Option Effect
  | .go => main me p
  | .deliver => if p.pending then some { next := p.handle } else none

/-- `kill`: signals of one kind do not queue. -/
def Process.kill (p : Process) : Process :=
  if p.phase = .killed then p else { p with pending := true }

/-- The two processes, and what they have printed. -/
structure Game where
  parent : Process
  child : Process
  printed : List String
  deriving DecidableEq, Repr

namespace Game

/-- One of the processes. -/
def process (g : Game) : Side → Process
  | .parent => g.parent
  | .child => g.child

/-- The game after a step of one process. -/
def after (g : Game) (e : Effect) : Side → Game
  | .parent =>
      { parent := e.next
        child := if e.kills then g.child.kill else g.child
        printed := g.printed ++ e.prints }
  | .child =>
      { parent := if e.kills then g.parent.kill else g.parent
        child := e.next
        printed := g.printed ++ e.prints }

variable (g : Game) (e : Effect) (me : Side)

@[simp] theorem process_after : (g.after e me).process me = e.next := by cases me <;> rfl

@[simp] theorem process_after_other :
    (g.after e me).process me.other =
      if e.kills then (g.process me.other).kill else g.process me.other := by
  cases me <;> rfl

@[simp] theorem printed_after : (g.after e me).printed = g.printed ++ e.prints := by
  cases me <;> rfl

end Game

/-- After `fork`: neither process has set its handler. -/
def initial : Game where
  parent := { phase := .setHandler, pending := false, got := false }
  child := { phase := .setHandler, pending := false, got := false }
  printed := []

/-- The two processes together. -/
def machine : Machine Game (Side × Act) where
  start g := g = initial
  step g a := (act a.1 (g.process a.1) a.2).map fun e => g.after e a.1

/-! ## What a step does -/

/-- The steps of `act`, one constructor for each. -/
inductive Step (me : Side) (p : Process) : Act → Effect → Prop
  | setHandler (hphase : p.phase = .setHandler) :
      Step me p .go { next := { p with phase := me.afterSetHandler } }
  | start (hphase : p.phase = .start) :
      Step me p .go { next := { p with phase := .send }, prints := [firstLine] }
  | pause (hphase : p.phase = .pause) : Step me p .go { next := { p with phase := .paused } }
  | check (hphase : p.phase = .check) :
      Step me p .go { next := { p with phase := if p.got then .clear else .pause } }
  | clear (hphase : p.phase = .clear) :
      Step me p .go { next := { p with phase := .print, got := false } }
  | print (hphase : p.phase = .print) :
      Step me p .go { next := { p with phase := .send }, prints := [me.line] }
  | send (hphase : p.phase = .send) :
      Step me p .go { next := { p with phase := .pause }, kills := true }
  | die (hpending : p.pending = true) (hphase : p.phase = .setHandler) :
      Step me p .deliver { next := { p with phase := .killed, pending := false } }
  | wake (hpending : p.pending = true) (hphase : p.phase = .paused) :
      Step me p .deliver { next := { phase := .check, pending := false, got := true } }
  | note (hpending : p.pending = true) (hset : p.phase ≠ .setHandler)
      (hawake : p.phase ≠ .paused) :
      Step me p .deliver { next := { p with pending := false, got := true } }

variable {me : Side} {p : Process} {a : Act} {e : Effect} {g g' : Game}

/-- There are no other steps. -/
theorem step_of_act (hact : act me p a = some e) : Step me p a e := by
  cases a with
  | go =>
      simp only [act, main] at hact
      split at hact
      case h_4 | h_9 => cases hact
      all_goals
        cases hact
        constructor
        assumption
  | deliver =>
      simp only [act] at hact
      split at hact
      case isFalse => cases hact
      case isTrue hpending =>
        cases hact
        unfold Process.handle
        split
        case h_1 hphase => exact .die hpending hphase
        case h_2 hphase => exact .wake hpending hphase
        case h_3 hset hawake => exact .note hpending hset hawake

theorem step_eq_some_iff {label : Side × Act} :
    machine.step g label = some g' ↔
      ∃ e, act label.1 (g.process label.1) label.2 = some e ∧ g.after e label.1 = g' :=
  Option.map_eq_some_iff

/-! ## The turn, and where it is -/

/-- The line of the turn `i`. -/
def lineOfTurn : Nat → String
  | 0 => firstLine
  | i + 1 => if i % 2 = 0 then Side.child.line else Side.parent.line

/-- The lines of the first `k` turns. -/
def linesOfTurns (k : Nat) : List String :=
  (List.range k).map lineOfTurn

theorem linesOfTurns_succ (k : Nat) :
    linesOfTurns (k + 1) = linesOfTurns k ++ [lineOfTurn k] := by
  simp [linesOfTurns, List.range_succ]

/-- After `k` lines the next one is that of the loop of the process. -/
def Side.hasTurn : Side → Nat → Prop
  | .parent, k => k % 2 = 0 ∧ 0 < k
  | .child, k => k % 2 = 1

theorem lineOfTurn_of_hasTurn {k : Nat} (h : me.hasTurn k) : lineOfTurn k = me.line := by
  cases k with
  | zero => cases me <;> simp [Side.hasTurn] at h
  | succ i =>
      cases me with
      | parent =>
          have hodd : ¬ i % 2 = 0 := by
            have heven := h.1
            omega
          rw [lineOfTurn, if_neg hodd]
      | child =>
          have heven : i % 2 = 0 := by
            simp only [Side.hasTurn] at h
            omega
          rw [lineOfTurn, if_pos heven]

/-- After its line the turn is that of the other process. -/
theorem Side.hasTurn.next {k : Nat} (h : me.hasTurn k) : me.other.hasTurn (k + 1) := by
  cases me <;> simp only [Side.hasTurn, Side.other] at * <;> omega

/-- The process is about to print or to send, or its end has taken the turn with it. -/
def Side.busy (me : Side) : Phase → Bool
  | .start | .print | .send | .killed => true
  | .setHandler => me = .parent
  | _ => false

/-- The turns at a process: as a pending signal, as its flag, or in what it is about to do. -/
def Process.turns (me : Side) (p : Process) : Nat :=
  p.pending.toNat + p.got.toNat + (me.busy p.phase).toNat

theorem Process.pending_le_turns (me : Side) (p : Process) : p.pending.toNat ≤ p.turns me := by
  unfold Process.turns
  omega

/-- A turn that the process has missed, or that its end has taken, is not on the way to it. -/
theorem Process.pending_lt_turns (me : Side) (p : Process)
    (h : p.got = true ∨ p.phase = .killed) : p.pending.toNat < p.turns me := by
  unfold Process.turns
  rcases h with hgot | hphase
  · rw [hgot, Bool.toNat_true]
    omega
  · rw [hphase, Side.busy, Bool.toNat_true]
    omega

/-- What a process relies on after `k` lines. -/
structure Relies (me : Side) (k : Nat) (p : Process) : Prop where
  due : p.pending = true ∨ p.got = true ∨ p.phase = .print → me.hasTurn k
  sends : p.phase = .send → me.other.hasTurn k
  first : p.phase = .start ∨ p.phase = .setHandler ∧ me = .parent → k = 0
  awake : p.phase = .check ∨ p.phase = .clear → p.got = true
  side : (p.phase = .start → me = .parent) ∧ (p.phase = .killed → me = .child)

/-- A step hands the turn on, or keeps it. -/
theorem Step.turns {k : Nat} (h : Step me p a e) (hrelies : Relies me k p)
    (hone : p.turns me ≤ 1) : e.next.turns me + e.kills.toNat = p.turns me := by
  cases h with
  | clear hphase =>
      have hgot := hrelies.awake (Or.inr hphase)
      simp [Process.turns, Side.busy, hphase, hgot]
  | check hphase =>
      have hgot := hrelies.awake (Or.inl hphase)
      simp [Process.turns, Side.busy, hphase, hgot]
  | setHandler hphase =>
      cases me <;> simp [Process.turns, Side.busy, Side.afterSetHandler, hphase]
  | die hpending hphase =>
      cases me with
      | parent => simp [Process.turns, Side.busy, hphase, hpending] at hone
      | child =>
          simp only [Process.turns, Side.busy, hphase, hpending, Bool.toNat_true,
            Bool.toNat_false, reduceCtorEq, decide_false]
          omega
  | wake hpending hphase =>
      simp only [Process.turns, Side.busy, hphase, hpending, Bool.toNat_true, Bool.toNat_false] at *
      omega
  | note hpending hset hawake =>
      simp only [Process.turns, hpending, Bool.toNat_true, Bool.toNat_false] at *
      omega
  | start hphase => simp [Process.turns, Side.busy, hphase]
  | pause hphase => simp [Process.turns, Side.busy, hphase]
  | print hphase => simp [Process.turns, Side.busy, hphase]
  | send hphase => simp [Process.turns, Side.busy, hphase]

/-- The process of a step goes on to find what it relies on. -/
theorem Step.relies {k : Nat} (h : Step me p a e) (hrelies : Relies me k p)
    (hone : p.turns me ≤ 1) : Relies me (k + e.prints.length) e.next := by
  have hnone : me.busy p.phase = true → p.pending = false ∧ p.got = false := by
    intro hbusy
    cases hpending : p.pending <;> cases hgot : p.got <;>
      simp [Process.turns, hbusy, hpending, hgot] at hone ⊢
  cases h with
  | setHandler hphase =>
      refine ⟨fun hdue => hrelies.due (Or.imp_right Or.inl ?_), ?_, ?_, ?_, ?_⟩
      · cases me <;> simpa [Side.afterSetHandler] using hdue
      all_goals cases me <;> simp [Side.afterSetHandler]
      exact hrelies.first (Or.inr ⟨hphase, rfl⟩)
  | start hphase =>
      obtain rfl := hrelies.side.1 hphase
      obtain rfl := hrelies.first (Or.inl hphase)
      have hnone := hnone (by rw [hphase]; rfl)
      exact ⟨by simp [hnone], fun _ => rfl, by simp, by simp, by simp⟩
  | pause hphase =>
      exact ⟨fun hdue => hrelies.due (Or.imp_right Or.inl (by simpa using hdue)), by simp,
        by simp, by simp, by simp⟩
  | check hphase =>
      have hgot := hrelies.awake (Or.inl hphase)
      simp only [hgot, if_true]
      exact ⟨fun _ => hrelies.due (Or.inr (Or.inl hgot)), by simp, by simp, by simp, by simp⟩
  | clear hphase =>
      have hgot := hrelies.awake (Or.inr hphase)
      exact ⟨fun _ => hrelies.due (Or.inr (Or.inl hgot)), by simp, by simp, by simp, by simp⟩
  | print hphase =>
      have hnone := hnone (by rw [hphase]; rfl)
      have hturn := hrelies.due (Or.inr (Or.inr hphase))
      exact ⟨by simp [hnone], fun _ => hturn.next, by simp, by simp, by simp⟩
  | send hphase =>
      have hnone := hnone (by rw [hphase]; rfl)
      exact ⟨by simp [hnone], by simp, by simp, by simp, by simp⟩
  | die hpending hphase =>
      have hchild : me = .child := by
        cases me with
        | child => rfl
        | parent => simp [Process.turns, Side.busy, hphase, hpending] at hone
      exact ⟨fun _ => hrelies.due (Or.inl hpending), by simp, by simp, by simp,
        by simp [hchild]⟩
  | wake hpending hphase =>
      exact ⟨fun _ => hrelies.due (Or.inl hpending), by simp, by simp, by simp, by simp⟩
  | note hpending hset hawake =>
      exact ⟨fun _ => hrelies.due (Or.inl hpending), hrelies.sends, hrelies.first, fun _ => rfl,
        hrelies.side⟩

/-- A process without the turn relies on nothing about it. -/
theorem Relies.of_turns_eq_zero {k k' : Nat} (h : Relies me k p) (hzero : p.turns me = 0) :
    Relies me k' p := by
  obtain ⟨⟨hpending, hgot⟩, hbusy⟩ :
      (p.pending = false ∧ p.got = false) ∧ me.busy p.phase = false := by
    simpa [Process.turns] using hzero
  refine ⟨fun hdue => ?_, fun hphase => ?_, fun hfirst => ?_, h.awake, h.side⟩
  · rcases hdue with hdue | hdue | hphase
    · exact absurd (hpending.symm.trans hdue) Bool.noConfusion
    · exact absurd (hgot.symm.trans hdue) Bool.noConfusion
    · rw [hphase] at hbusy
      cases hbusy
  · rw [hphase] at hbusy
    cases hbusy
  · rcases hfirst with hphase | ⟨hphase, rfl⟩
    · rw [hphase] at hbusy
      cases hbusy
    · rw [hphase] at hbusy
      cases hbusy

/-- A process that is sent the signal has not ended, and the turn comes to it. -/
theorem Process.turns_kill (hzero : p.turns me = 0) : p.kill.turns me = 1 := by
  have halive : p.phase ≠ .killed := by
    intro hphase
    simp [Process.turns, Side.busy, hphase] at hzero
  rw [Process.kill, if_neg halive]
  simp only [Process.turns, Bool.toNat_true] at *
  omega

/-- The process that is sent the signal finds what it relies on. -/
theorem Relies.kill {k : Nat} (h : Relies me k p) (hturn : me.hasTurn k)
    (hzero : p.turns me = 0) : Relies me k p.kill := by
  obtain ⟨-, hbusy⟩ : (p.pending = false ∧ p.got = false) ∧ me.busy p.phase = false := by
    simpa [Process.turns] using hzero
  unfold Process.kill
  split
  case isTrue => exact h
  case isFalse =>
    refine ⟨fun _ => hturn, fun hphase => ?_, h.first, h.awake, h.side⟩
    rw [show p.phase = .send from hphase] at hbusy
    cases hbusy

/-- Only a process with the turn prints, its line or the first one, and none at all where it sends
the signal. -/
theorem Step.prints {k : Nat} (h : Step me p a e) (hrelies : Relies me k p) :
    e.prints = [] ∧ (e.kills = true → me.other.hasTurn k ∧ me.busy p.phase = true) ∨
      e.kills = false ∧ e.prints = [lineOfTurn k] ∧ me.busy p.phase = true := by
  cases h with
  | start hphase =>
      obtain rfl := hrelies.first (Or.inl hphase)
      exact Or.inr ⟨rfl, rfl, by rw [hphase]; rfl⟩
  | print hphase =>
      have hline := lineOfTurn_of_hasTurn (hrelies.due (Or.inr (Or.inr hphase)))
      exact Or.inr ⟨rfl, by rw [hline], by rw [hphase]; rfl⟩
  | send hphase => exact Or.inl ⟨rfl, fun _ => ⟨hrelies.sends hphase, by rw [hphase]; rfl⟩⟩
  | _ => exact Or.inl ⟨rfl, nofun⟩

/-! ## What every run keeps -/

/-- One of the processes has the turn, and what is printed are the lines of the turns. -/
structure Inv (g : Game) : Prop where
  turns : g.parent.turns .parent + g.child.turns .child = 1
  relies : ∀ who, Relies who g.printed.length (g.process who)
  printed : g.printed = linesOfTurns g.printed.length

namespace Inv

theorem turns_of (h : Inv g) (me : Side) :
    (g.process me).turns me + (g.process me.other).turns me.other = 1 := by
  cases me with
  | parent => exact h.turns
  | child => exact (Nat.add_comm _ _).trans h.turns

/-- The other process, over a step: it has no turn where the process prints or sends. -/
theorem other_step (h : Inv g) (hstep : Step me (g.process me) a e) :
    ((g.after e me).process me.other).turns me.other =
        (g.process me.other).turns me.other + e.kills.toNat ∧
      Relies me.other (g.printed.length + e.prints.length)
        ((g.after e me).process me.other) := by
  have hturns := h.turns_of me
  have hother := h.relies me.other
  have hzero : me.busy (g.process me).phase = true → (g.process me.other).turns me.other = 0 := by
    intro hbusy
    have hpos : 1 ≤ (g.process me).turns me := by
      simp [Process.turns, hbusy]
    omega
  rw [Game.process_after_other]
  rcases hstep.prints (h.relies me) with ⟨hprints, hkills⟩ | ⟨hkills, -, hbusy⟩
  · rw [hprints, List.length_nil, Nat.add_zero]
    cases hkill : e.kills with
    | false => exact ⟨rfl, hother⟩
    | true =>
        obtain ⟨hturn, hbusy⟩ := hkills hkill
        have hzero := hzero hbusy
        simp only [if_true, Bool.toNat_true]
        exact ⟨by rw [Process.turns_kill hzero, hzero], hother.kill hturn hzero⟩
  · rw [hkills]
    exact ⟨rfl, hother.of_turns_eq_zero (hzero hbusy)⟩

/-- A step keeps it all. -/
theorem step {label : Side × Act} (h : Inv g) (hstep : machine.step g label = some g') :
    Inv g' := by
  obtain ⟨me, a⟩ := label
  obtain ⟨e, hact, rfl⟩ := step_eq_some_iff.mp hstep
  replace hstep : Step me (g.process me) a e := step_of_act hact
  have hturns := h.turns_of me
  have hown := hstep.turns (h.relies me) (by omega)
  obtain ⟨hother, hrelies⟩ := h.other_step hstep
  have hsum : ((g.after e me).process me).turns me +
      ((g.after e me).process me.other).turns me.other = 1 := by
    rw [Game.process_after]
    omega
  refine ⟨?_, fun who => ?_, ?_⟩
  · simp only
    cases me with
    | parent => exact hsum
    | child => exact (Nat.add_comm _ _).trans hsum
  · rw [Game.printed_after, List.length_append]
    by_cases hwho : who = me
    · subst hwho
      rw [Game.process_after]
      exact hstep.relies (h.relies who) (by omega)
    · obtain rfl := Side.eq_other_of_ne hwho
      exact hrelies
  · rw [Game.printed_after, List.length_append]
    rcases hstep.prints (h.relies me) with ⟨hprints, -⟩ | ⟨-, hprints, -⟩
    · rw [hprints, List.append_nil]
      exact h.printed
    · rw [hprints, List.length_singleton, linesOfTurns_succ, ← h.printed]

/-- At the start the turn is with the parent. -/
theorem start : Inv initial := by
  refine ⟨rfl, fun who => ?_, rfl⟩
  cases who <;> constructor <;> simp [initial, Game.process]

end Inv

/-- Every run keeps the invariant. -/
theorem inv_of_reached (h : machine.Reached g) : Inv g :=
  Machine.ReachedBy.invariant (fun _ hstart => hstart ▸ Inv.start) (fun _ _ _ h _ => h.step) h

/-! ## Where the game ends -/

/-- A process without a step is asleep or ended, and no signal is on the way to it. -/
theorem stuck_process (hgo : act me p .go = none) (hdeliver : act me p .deliver = none) :
    (p.phase = .paused ∨ p.phase = .killed) ∧ p.pending = false := by
  constructor
  · simp only [act, main] at hgo
    split at hgo
    case h_4 hphase => exact Or.inl hphase
    case h_9 hphase => exact Or.inr hphase
    all_goals cases hgo
  · simp only [act] at hdeliver
    split at hdeliver
    case isTrue => cases hdeliver
    case isFalse hpending => exact Bool.eq_false_iff.mpr hpending

/-- So is a process that sleeps without a signal, or has ended so. -/
theorem act_eq_none (hphase : p.phase = .paused ∨ p.phase = .killed) (hpending : p.pending = false)
    (a : Act) : act me p a = none := by
  cases a with
  | go => rcases hphase with hphase | hphase <;> simp [act, main, hphase]
  | deliver => simp [act, hpending]

theorem step_eq_none_iff {label : Side × Act} :
    machine.step g label = none ↔ act label.1 (g.process label.1) label.2 = none :=
  Option.map_eq_none_iff

/-- The lines alternate in every run.  And the game stops just where the first signal has ended a
child that had no handler yet, or where both processes sleep and one of them has its flag set: its
signal came after it had tested the flag, and before it slept. -/
theorem game_stops_iff (h : machine.Reached g) :
    g.printed = linesOfTurns g.printed.length ∧
      ((∀ label, machine.step g label = none) ↔
        g.parent.phase = .paused ∧ (g.child.phase = .killed ∨
          g.child.phase = .paused ∧ (g.parent.got = true ∨ g.child.got = true))) := by
  have hinv := inv_of_reached h
  have hturns := hinv.turns
  have hnokill : g.parent.phase ≠ .killed := by
    intro hkilled
    cases (hinv.relies .parent).side.2 hkilled
  refine ⟨hinv.printed, fun hstuck => ?_, fun hstop label => step_eq_none_iff.mpr ?_⟩
  · have hact : ∀ me a, act me (g.process me) a = none := fun me a =>
      step_eq_none_iff.mp (hstuck (me, a))
    obtain ⟨hparent, hpending⟩ := stuck_process (hact .parent .go) (hact .parent .deliver)
    obtain ⟨hchild, hpending'⟩ := stuck_process (hact .child .go) (hact .child .deliver)
    replace hparent : g.parent.phase = .paused := hparent.resolve_right hnokill
    refine ⟨hparent, hchild.symm.imp_right fun hchild => ⟨hchild, ?_⟩⟩
    -- the turn is neither with a signal on the way nor with what a process is about to do
    simp only [Game.process] at hpending hpending' hchild
    cases hgot : g.parent.got <;> cases hgot' : g.child.got <;>
      simp [Process.turns, Side.busy, hparent, hchild, hpending, hpending', hgot, hgot'] at hturns ⊢
  · obtain ⟨hparent, hchild⟩ := hstop
    have hchild' : g.child.phase = .paused ∨ g.child.phase = .killed := by
      rcases hchild with hchild | ⟨hchild, -⟩
      · exact Or.inr hchild
      · exact Or.inl hchild
    -- one turn is elsewhere, so it is not a signal on the way
    have hnone : g.parent.pending.toNat + g.child.pending.toNat = 0 := by
      have hle := g.parent.pending_le_turns .parent
      have hle' := g.child.pending_le_turns .child
      rcases hchild with hkilled | ⟨-, hgot | hgot⟩
      · have hlt := g.child.pending_lt_turns .child (Or.inr hkilled)
        omega
      · have hlt := g.parent.pending_lt_turns .parent (Or.inl hgot)
        omega
      · have hlt := g.child.pending_lt_turns .child (Or.inl hgot)
        omega
    obtain ⟨hpending, hpending'⟩ := Nat.add_eq_zero_iff.mp hnone
    cases hside : label.1 with
    | parent => exact act_eq_none (Or.inl hparent) (Bool.toNat_eq_zero.mp hpending) _
    | child => exact act_eq_none hchild' (Bool.toNat_eq_zero.mp hpending') _

/-! ## Games that go on -/

/-- How many steps the turn has before the next print, as long as it is in the process. -/
def Side.weight (me : Side) (p : Process) : Nat :=
  3 * p.pending.toNat + (if p.phase = .clear then 1 else 2) * p.got.toNat +
    match p.phase with
    | .setHandler => if me = .parent then 1 else 2
    | .pause => 1
    | .send => 5
    | _ => 0

/-- How many steps the processes have before the next print at most. -/
def Game.rank (g : Game) : Nat :=
  Side.parent.weight g.parent + Side.child.weight g.child

/-- Each step takes one from the weight, or prints a line, which is worth six; a signal that is
sent is worth three. -/
theorem Step.weight {k : Nat} (h : Step me p a e) (hrelies : Relies me k p) :
    me.weight e.next + 3 * e.kills.toNat + 1 ≤ me.weight p + 6 * e.prints.length := by
  cases h with
  | setHandler hphase => cases me <;> simp [Side.weight, Side.afterSetHandler, hphase]
  | check hphase =>
      have hgot := hrelies.awake (Or.inl hphase)
      simp [Side.weight, hphase, hgot]
  | clear hphase =>
      have hgot := hrelies.awake (Or.inr hphase)
      simp [Side.weight, hphase, hgot]
  | note hpending hset hawake =>
      simp only [Side.weight, hpending, Bool.toNat_true, Bool.toNat_false]
      split <;> omega
  | die hpending hphase =>
      simp only [Side.weight, hpending, hphase, Bool.toNat_true, Bool.toNat_false,
        reduceCtorEq, if_false, List.length_nil]
      split <;> omega
  | wake hpending hphase =>
      simp only [Side.weight, hpending, hphase, Bool.toNat_true, Bool.toNat_false]
      simp
  | start hphase => simp [Side.weight, hphase]
  | pause hphase => simp [Side.weight, hphase]
  | print hphase => simp [Side.weight, hphase]
  | send hphase => simp [Side.weight, hphase]

/-- A signal adds its own weight at most. -/
theorem Process.weight_kill (me : Side) (p : Process) : me.weight p.kill ≤ me.weight p + 3 := by
  unfold Process.kill
  split
  case isTrue => exact Nat.le_add_right _ _
  case isFalse =>
    simp only [Side.weight, Bool.toNat_true]
    omega

/-- Every step takes one from the rank, or prints. -/
theorem Inv.rank_step {label : Side × Act} (h : Inv g)
    (hstep : machine.step g label = some g') :
    g'.rank + 1 + 6 * g.printed.length ≤ g.rank + 6 * g'.printed.length := by
  obtain ⟨me, a⟩ := label
  obtain ⟨e, hact, rfl⟩ := step_eq_some_iff.mp hstep
  replace hstep : Step me (g.process me) a e := step_of_act hact
  have hown := hstep.weight (h.relies me)
  have hother : me.other.weight ((g.after e me).process me.other) ≤
      me.other.weight (g.process me.other) + 3 * e.kills.toNat := by
    rw [Game.process_after_other]
    cases e.kills with
    | false => exact Nat.le_refl _
    | true => exact Process.weight_kill _ _
  rw [Game.printed_after, List.length_append]
  cases me <;> simp only [Game.rank, Game.process, Game.after, Side.other] at * <;> omega

/-- A signal is delivered to a process that has its handler and is not about to sleep. -/
def Timely (g : Game) (label : Side × Act) : Prop :=
  label.2 = .deliver →
    (g.process label.1).phase ≠ .setHandler ∧ (g.process label.1).phase ≠ .pause

instance (g : Game) (label : Side × Act) : Decidable (Timely g label) :=
  inferInstanceAs (Decidable (_ → _))

/-- The process has not ended, and has its flag set only when it is back from `pause`. -/
def Process.Attentive (p : Process) : Prop :=
  p.phase ≠ .killed ∧ (p.got = true → p.phase = .check ∨ p.phase = .clear)

/-- A step with a timely delivery. -/
theorem Step.attentive {k : Nat} (h : Step me p a e) (hrelies : Relies me k p)
    (hone : p.turns me ≤ 1) (hp : p.Attentive)
    (htimely : a = .deliver → p.phase ≠ .setHandler ∧ p.phase ≠ .pause) : e.next.Attentive := by
  have hflag : p.phase ≠ .check → p.phase ≠ .clear → p.got = false := fun hcheck hclear =>
    Bool.eq_false_iff.mpr fun hgot => (hp.2 hgot).elim hcheck hclear
  cases h with
  | setHandler hphase =>
      have hgot := hflag (by simp [hphase]) (by simp [hphase])
      refine ⟨?_, fun hnow => absurd (hgot.symm.trans hnow) Bool.noConfusion⟩
      cases me <;> simp [Side.afterSetHandler]
  | check hphase =>
      have hgot := hrelies.awake (Or.inl hphase)
      exact ⟨by simp [hgot], fun _ => Or.inr (by simp [hgot])⟩
  | clear hphase => exact ⟨nofun, nofun⟩
  | die hpending hphase => exact absurd hphase (htimely rfl).1
  | wake hpending hphase => exact ⟨nofun, fun _ => Or.inl rfl⟩
  | note hpending hset hawake =>
      -- the turn is the signal, so the process is not about to do anything either
      exfalso
      obtain ⟨hkilled, hgot⟩ := hp
      have hpause := (htimely rfl).2
      have hback : ¬ (p.phase = .check ∨ p.phase = .clear) := by
        intro hphase
        simp only [Process.turns, hpending, hrelies.awake hphase, Bool.toNat_true] at hone
        omega
      have hbusy : me.busy p.phase = false := by
        cases hbusy : me.busy p.phase with
        | false => rfl
        | true => simp [Process.turns, hpending, hbusy] at hone
      cases hphase : p.phase <;> simp_all [Side.busy]
  | start hphase =>
      have hgot := hflag (by simp [hphase]) (by simp [hphase])
      exact ⟨nofun, fun hnow => absurd (hgot.symm.trans hnow) Bool.noConfusion⟩
  | pause hphase =>
      have hgot := hflag (by simp [hphase]) (by simp [hphase])
      exact ⟨nofun, fun hnow => absurd (hgot.symm.trans hnow) Bool.noConfusion⟩
  | print hphase =>
      have hgot := hflag (by simp [hphase]) (by simp [hphase])
      exact ⟨nofun, fun hnow => absurd (hgot.symm.trans hnow) Bool.noConfusion⟩
  | send hphase =>
      have hgot := hflag (by simp [hphase]) (by simp [hphase])
      exact ⟨nofun, fun hnow => absurd (hgot.symm.trans hnow) Bool.noConfusion⟩

/-- A signal that is sent does not change that. -/
theorem Process.Attentive.kill (h : p.Attentive) : p.kill.Attentive := by
  unfold Process.kill
  split
  case isTrue => exact h
  case isFalse => exact h

/-- Where every delivery is timely, both processes stay attentive. -/
theorem attentive_of_reachedBy (h : machine.ReachedBy Timely g) :
    ∀ who, (g.process who).Attentive := by
  suffices hboth : Inv g ∧ ∀ who, (g.process who).Attentive from hboth.2
  refine Machine.ReachedBy.invariant
    (I := fun g => Inv g ∧ ∀ who, (g.process who).Attentive) ?_ ?_ h
  · rintro g rfl
    refine ⟨Inv.start, fun who => ?_⟩
    cases who <;> exact ⟨nofun, nofun⟩
  · rintro g ⟨me, a⟩ g' ⟨hinv, hboth⟩ htimely hstep
    refine ⟨hinv.step hstep, fun who => ?_⟩
    obtain ⟨e, hact, rfl⟩ := step_eq_some_iff.mp hstep
    replace hstep : Step me (g.process me) a e := step_of_act hact
    have hturns := hinv.turns_of me
    by_cases hwho : who = me
    · subst hwho
      rw [Game.process_after]
      exact hstep.attentive (hinv.relies who) (by omega) (hboth who) htimely
    · obtain rfl := Side.eq_other_of_ne hwho
      rw [Game.process_after_other]
      split
      case isTrue => exact (hboth me.other).kill
      case isFalse => exact hboth me.other

/-- An attentive process that cannot go on sleeps, and the turn is not with it. -/
theorem turns_eq_zero_of_stuck (hattentive : (g.process me).Attentive)
    (hstuck : ∀ label g', Timely g label → machine.step g label ≠ some g') :
    (g.process me).turns me = 0 := by
  have hgo : act me (g.process me) .go = none := by
    by_contra hsome
    obtain ⟨e, he⟩ := Option.ne_none_iff_exists'.mp hsome
    exact hstuck (me, .go) _ nofun (step_eq_some_iff.mpr ⟨e, he, rfl⟩)
  have hphase : (g.process me).phase = .paused := by
    simp only [act, main] at hgo
    split at hgo
    case h_4 hphase => exact hphase
    case h_9 hphase => exact absurd hphase hattentive.1
    all_goals cases hgo
  have hpending : (g.process me).pending = false := by
    refine Bool.eq_false_iff.mpr fun hpending => ?_
    have hdeliver : act me (g.process me) .deliver = some { next := (g.process me).handle } :=
      if_pos hpending
    refine hstuck (me, .deliver) _ (fun _ => ?_) (step_eq_some_iff.mpr ⟨_, hdeliver, rfl⟩)
    simp only [hphase]
    exact ⟨nofun, nofun⟩
  have hgot : (g.process me).got = false := by
    refine Bool.eq_false_iff.mpr fun hgot => ?_
    have hback := hattentive.2 hgot
    simp [hphase] at hback
  simp [Process.turns, Side.busy, hphase, hpending, hgot]

/-- A run has at most six steps for each line that it prints, and three more.  And where no signal
is delivered to a process that has no handler yet or is about to sleep, the game goes on: there
is always a step, with no such delivery. -/
theorem game_goes_on {labels : List (Side × Act)} (hrun : machine.run initial labels = some g) :
    labels.length ≤ 6 * g.printed.length + 3 ∧
      (machine.Admits Timely initial labels →
        ∃ label g', Timely g label ∧ machine.step g label = some g') := by
  constructor
  · have hincome := Machine.run_income (I := Inv) (fun _ _ _ h hstep => h.step hstep)
      (fun _ _ _ h hstep => h.rank_step hstep) Inv.start hrun
    have hfirst : initial.rank = 3 := rfl
    have hprinted : initial.printed.length = 0 := rfl
    omega
  · intro hadmits
    have hreached : machine.ReachedBy Timely g := .run (.start rfl) hadmits hrun
    have hattentive := attentive_of_reachedBy hreached
    have hturns := (inv_of_reached (hreached.mono fun _ _ _ => trivial)).turns
    by_contra hnone
    -- otherwise nobody has the turn
    have hstuck : ∀ label g', Timely g label → machine.step g label ≠ some g' :=
      fun label g' htimely hstep => hnone ⟨label, g', htimely, hstep⟩
    have hparent := turns_eq_zero_of_stuck (hattentive .parent) hstuck
    have hchild := turns_eq_zero_of_stuck (hattentive .child) hstuck
    simp only [Game.process] at hparent hchild
    omega

/-! ## Sample runs -/

/-- A game of three lines in which every delivery is timely. -/
def timelyRun : List (Side × Act) :=
  [(.parent, .go), (.child, .go), (.child, .go), (.parent, .go), (.parent, .go), (.parent, .go),
    (.child, .deliver), (.child, .go), (.child, .go), (.child, .go), (.child, .go),
    (.parent, .deliver), (.parent, .go), (.parent, .go), (.parent, .go)]

/-- The answer of the child comes before the parent is in `pause`. -/
def lostRun : List (Side × Act) :=
  [(.parent, .go), (.child, .go), (.child, .go), (.parent, .go), (.parent, .go),
    (.child, .deliver), (.child, .go), (.child, .go), (.child, .go), (.child, .go),
    (.parent, .deliver), (.parent, .go), (.child, .go)]

theorem lostRun_eq : machine.run initial lostRun = some
    { parent := { phase := .paused, pending := false, got := true }
      child := { phase := .paused, pending := false, got := false }
      printed := [firstLine, Side.child.line] } := rfl

theorem game_stops_iff_lost :
    ∃ g, machine.run initial lostRun = some g ∧ ∀ label, machine.step g label = none :=
  ⟨_, lostRun_eq, (game_stops_iff (Machine.Reached.run (.start rfl) lostRun_eq)).2.mpr
    ⟨rfl, Or.inr ⟨rfl, Or.inl rfl⟩⟩⟩

theorem timelyRun_eq : machine.run initial timelyRun = some
    { parent := { phase := .send, pending := false, got := false }
      child := { phase := .pause, pending := false, got := false }
      printed := [firstLine, Side.child.line, Side.parent.line] } := rfl

theorem game_goes_on_timely :
    ∃ g label g', machine.run initial timelyRun = some g ∧ machine.step g label = some g' := by
  have hadmits : machine.Admits Timely initial timelyRun := by decide
  obtain ⟨label, g', -, hstep⟩ := (game_goes_on timelyRun_eq).2 hadmits
  exact ⟨_, label, g', timelyRun_eq, hstep⟩

end PingPongSignals
end Sys
end InfinityLabs
