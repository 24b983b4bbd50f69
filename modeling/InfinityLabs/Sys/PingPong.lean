import InfinityLabs.Lib.Crew

/-!
# Ping-pong by semaphores

`ipc_pingpong/ex1_ping.c` and `ipc_pingpong/ex1_pong.c`: two programs, started in any order,
that take turns by two named semaphores.  The counter with which both start is arbitrary.
-/

namespace InfinityLabs
namespace Sys
namespace PingPong

open Lib

/-! ## The turns -/

/-- The two programs.  Each waits on the semaphore of its own name and posts the other one. -/
inductive Player where
  | ping
  | pong
  deriving DecidableEq, Repr

namespace Player

/-- The other program. -/
def other : Player → Player
  | .ping => .pong
  | .pong => .ping

/-- The value with which both programs create the semaphore of that name. -/
def first : Player → Nat
  | .ping => 1
  | .pong => 0

/-- What the program prints in its turn. -/
def line : Player → String
  | .ping => "Ping is sent\n"
  | .pong => "Pong is sent\n\n"

@[simp] theorem other_ne (me : Player) : me.other ≠ me := by
  cases me <;> exact Player.noConfusion

@[simp] theorem other_other (me : Player) : me.other.other = me := by cases me <;> rfl

theorem eq_other_of_ne {me who : Player} (hne : who ≠ me) : who = me.other := by
  cases me <;> cases who <;> first | rfl | exact absurd rfl hne

end Player

/-- The line of the turn `i`. -/
def lineOfTurn (i : Nat) : String :=
  if i % 2 = 0 then Player.ping.line else Player.pong.line

/-- The lines of the first `k` turns. -/
def linesOfTurns (k : Nat) : List String :=
  (List.range k).map lineOfTurn

theorem linesOfTurns_succ (k : Nat) :
    linesOfTurns (k + 1) = linesOfTurns k ++ [lineOfTurn k] := by
  simp [linesOfTurns, List.range_succ]

/-! ## The names and the values -/

/-- What the programs share: the semaphores for which the names stand, if any, the values of all
semaphores there have been, and the output. -/
structure Shared where
  SEM_PING : Option Nat
  SEM_PONG : Option Nat
  values : List Nat
  printed : List String
  deriving DecidableEq, Repr

namespace Shared

/-- The semaphore of a name. -/
def name (s : Shared) : Player → Option Nat
  | .ping => s.SEM_PING
  | .pong => s.SEM_PONG

/-- The name stands for another semaphore, or for none. -/
def rename (s : Shared) (entry : Option Nat) : Player → Shared
  | .ping => { s with SEM_PING := entry }
  | .pong => { s with SEM_PONG := entry }

variable (s : Shared) (entry : Option Nat) (who : Player)

@[simp] theorem name_rename : (s.rename entry who).name who = entry := by cases who <;> rfl

@[simp] theorem name_rename_other :
    (s.rename entry who).name who.other = s.name who.other := by cases who <;> rfl

@[simp] theorem values_rename : (s.rename entry who).values = s.values := by cases who <;> rfl

@[simp] theorem printed_rename : (s.rename entry who).printed = s.printed := by
  cases who <;> rfl

/-- `sem_open` with `O_CREAT`: where the name stands for a semaphore the value is ignored. -/
def sem_open : Nat × Shared :=
  match s.name who with
  | some r => (r, s)
  | none =>
      (s.values.length,
        { s with values := s.values ++ [who.first] }.rename (some s.values.length) who)

/-- `sem_wait`, which blocks where the value is zero. -/
def sem_wait (r : Nat) : Option Shared :=
  match s.values[r]? with
  | some (v + 1) => some { s with values := s.values.set r v }
  | _ => none

/-- `sem_post`. -/
def sem_post (r : Nat) : Shared :=
  { s with values := s.values.modify r (· + 1) }

/-- `sem_unlink`: the name is gone, the semaphore stays. -/
def sem_unlink : Shared :=
  s.rename none who

end Shared

/-! ## The programs -/

/-- Where a program stands, with its variables from their initialisation on: before each
`sem_open`, in its loop at the wait, at the print and at the post, before each `sem_unlink`, and
returned. -/
inductive Phase where
  | openPing
  | openPong (sem_ping : Nat)
  | wait (sem_ping sem_pong counter : Nat)
  | print (sem_ping sem_pong counter : Nat)
  | post (sem_ping sem_pong counter : Nat)
  | unlinkPing
  | unlinkPong
  | returned
  deriving DecidableEq, Repr

/-- The variable with the semaphore of that name. -/
def Player.pick (sem_ping sem_pong : Nat) : Player → Nat
  | .ping => sem_ping
  | .pong => sem_pong

/-- Where a program goes from its loop: only the second one unlinks the names. -/
def Player.leave : Player → Phase
  | .ping => .returned
  | .pong => .unlinkPing

/-- A step of `main`, for the value `n` of `counter` at its start. -/
def main (me : Player) (n : Nat) (s : Shared) : Phase → Option (Shared × Phase)
  | .openPing => some ((s.sem_open .ping).2, .openPong (s.sem_open .ping).1)
  | .openPong sem_ping => some ((s.sem_open .pong).2, .wait sem_ping (s.sem_open .pong).1 n)
  | .wait _ _ 0 => some (s, me.leave)
  | .wait sem_ping sem_pong (c + 1) =>
      (s.sem_wait (me.pick sem_ping sem_pong)).map fun s => (s, .print sem_ping sem_pong (c + 1))
  | .print sem_ping sem_pong c =>
      some ({ s with printed := s.printed ++ [me.line] }, .post sem_ping sem_pong c)
  | .post sem_ping sem_pong c =>
      some (s.sem_post (me.other.pick sem_ping sem_pong), .wait sem_ping sem_pong (c - 1))
  | .unlinkPing => some (s.sem_unlink .ping, .unlinkPong)
  | .unlinkPong => some (s.sem_unlink .pong, .returned)
  | .returned => none

/-- `ex1_ping.c`. -/
def ex1_ping : Nat → Shared → Phase → Option (Shared × Phase) := main .ping

/-- `ex1_pong.c`. -/
def ex1_pong : Nat → Shared → Phase → Option (Shared × Phase) := main .pong

/-- The two programs together. -/
structure Game where
  shared : Shared
  ping : Phase
  pong : Phase
  deriving DecidableEq, Repr

namespace Game

/-- Where a program stands. -/
def phase (g : Game) : Player → Phase
  | .ping => g.ping
  | .pong => g.pong

/-- A program has taken a step. -/
def move (g : Game) (next : Shared × Phase) : Player → Game
  | .ping => { g with shared := next.1, ping := next.2 }
  | .pong => { g with shared := next.1, pong := next.2 }

variable (g : Game) (next : Shared × Phase) (me : Player)

@[simp] theorem shared_move : (g.move next me).shared = next.1 := by cases me <;> rfl

@[simp] theorem phase_move : (g.move next me).phase me = next.2 := by cases me <;> rfl

@[simp] theorem phase_move_other : (g.move next me).phase me.other = g.phase me.other := by
  cases me <;> rfl

end Game

/-- A step of one of the programs. -/
def step (n : Nat) (g : Game) : Player → Option Game
  | .ping => (ex1_ping n g.shared g.ping).map fun next => g.move next .ping
  | .pong => (ex1_pong n g.shared g.pong).map fun next => g.move next .pong

/-- The programs, in a system in which the names stand for nothing. -/
def machine (n : Nat) : Machine Game Player where
  start g :=
    g.shared.SEM_PING = none ∧ g.shared.SEM_PONG = none ∧ g.shared.printed = [] ∧
      g.ping = .openPing ∧ g.pong = .openPing
  step := step n

theorem step_eq_some_iff {n : Nat} {g g' : Game} {me : Player} :
    (machine n).step g me = some g' ↔
      ∃ next, main me n g.shared (g.phase me) = some next ∧ g.move next me = g' := by
  cases me <;> exact Option.map_eq_some_iff

/-- The steps of `main`, one constructor for each. -/
inductive Step (me : Player) (n : Nat) (s : Shared) : Phase → Shared → Phase → Prop
  | openPing : Step me n s .openPing (s.sem_open .ping).2 (.openPong (s.sem_open .ping).1)
  | openPong (r : Nat) :
      Step me n s (.openPong r) (s.sem_open .pong).2 (.wait r (s.sem_open .pong).1 n)
  | leave (r t : Nat) : Step me n s (.wait r t 0) s me.leave
  | wait (r t c : Nat) {s' : Shared} (hwait : s.sem_wait (me.pick r t) = some s') :
      Step me n s (.wait r t (c + 1)) s' (.print r t (c + 1))
  | print (r t c : Nat) :
      Step me n s (.print r t c) { s with printed := s.printed ++ [me.line] } (.post r t c)
  | post (r t c : Nat) :
      Step me n s (.post r t c) (s.sem_post (me.other.pick r t)) (.wait r t (c - 1))
  | unlinkPing : Step me n s .unlinkPing (s.sem_unlink .ping) .unlinkPong
  | unlinkPong : Step me n s .unlinkPong (s.sem_unlink .pong) .returned

/-- There are no other steps. -/
theorem step_of_main {me : Player} {n : Nat} {s s' : Shared} {p p' : Phase}
    (hmain : main me n s p = some (s', p')) : Step me n s p s' p' := by
  unfold main at hmain
  split at hmain
  case h_4 r t c =>
    obtain ⟨s₁, hwait, heq⟩ := Option.map_eq_some_iff.mp hmain
    cases heq
    exact .wait r t c hwait
  case h_9 => cases hmain
  all_goals
    cases hmain
    constructor

/-! ## The values of the two semaphores -/

namespace Shared

/-- The semaphores of the names exist, and they are not the same one. -/
structure Sound (s : Shared) : Prop where
  lt : ∀ {who : Player} {r : Nat}, s.name who = some r → r < s.values.length
  apart : ∀ {who : Player} {r : Nat}, s.name who = some r → s.name who.other ≠ some r

/-- The value of the semaphore of a name, which is the first one until a program creates it. -/
def value (s : Shared) (who : Player) : Nat :=
  match s.name who with
  | none => who.first
  | some r => s.values.getD r 0

variable {s s' : Shared} {me who : Player} {r : Nat}

@[simp] theorem name_with_values (l : List Nat) :
    ({ s with values := l } : Shared).name who = s.name who := by cases who <;> rfl

@[simp] theorem name_with_printed (l : List String) :
    ({ s with printed := l } : Shared).name who = s.name who := by cases who <;> rfl

theorem value_of_none (h : s.name who = none) : s.value who = who.first := by
  simp [value, h]

theorem value_of_some (h : s.name who = some r) : s.value who = s.values.getD r 0 := by
  simp [value, h]

/-- The value is that of the semaphore with the name. -/
theorem value_congr (hname : s'.name who = s.name who)
    (hvalues : ∀ r, s.name who = some r → s'.values.getD r 0 = s.values.getD r 0) :
    s'.value who = s.value who := by
  cases h : s.name who with
  | none => rw [value_of_none h, value_of_none (hname.trans h)]
  | some r => rw [value_of_some h, value_of_some (hname.trans h), hvalues r h]

/-- The name stands for the semaphore that `sem_open` gives. -/
theorem name_sem_open : (s.sem_open who).2.name who = some (s.sem_open who).1 := by
  unfold sem_open
  split
  case h_1 r h => exact h
  case h_2 => exact name_rename _ _ _

/-- The other name is left alone. -/
theorem name_sem_open_other : (s.sem_open who).2.name who.other = s.name who.other := by
  unfold sem_open
  split
  case h_1 => rfl
  case h_2 => rw [name_rename_other, name_with_values]

/-- A name that stands for a semaphore goes on standing for it. -/
theorem name_sem_open_of_some (h : s.name who = some r) :
    (s.sem_open me).2.name who = some r := by
  by_cases hwho : who = me
  · subst hwho
    have hopen : s.sem_open who = (r, s) := by simp [sem_open, h]
    rw [hopen]
    exact h
  · rw [Player.eq_other_of_ne hwho, name_sem_open_other, ← Player.eq_other_of_ne hwho, h]

@[simp] theorem printed_sem_open : (s.sem_open who).2.printed = s.printed := by
  unfold sem_open
  split <;> simp

/-- Semaphores are only added. -/
theorem values_sem_open (s : Shared) (who : Player) :
    ∃ l, (s.sem_open who).2.values = s.values ++ l := by
  unfold sem_open
  split
  · exact ⟨[], (List.append_nil _).symm⟩
  · exact ⟨[who.first], by simp⟩

theorem Sound.sem_open (h : s.Sound) : (s.sem_open me).2.Sound := by
  cases hname : s.name me with
  | some r =>
      have hopen : s.sem_open me = (r, s) := by simp [Shared.sem_open, hname]
      rwa [hopen]
  | none =>
      have hopen : s.sem_open me = (s.values.length,
          { s with values := s.values ++ [me.first] }.rename (some s.values.length) me) := by
        simp [Shared.sem_open, hname]
      rw [hopen]
      -- the new semaphore lies behind those of the names
      have hother : ∀ r, s.name me.other = some r → r < s.values.length := fun r => h.lt
      constructor
      · intro who r hr
        rw [values_rename, List.length_append, List.length_singleton]
        by_cases hwho : who = me
        · subst hwho
          rw [name_rename] at hr
          cases hr
          exact Nat.lt_succ_self _
        · rw [Player.eq_other_of_ne hwho, name_rename_other, name_with_values] at hr
          exact Nat.lt_succ_of_lt (hother r hr)
      · intro who r hr
        by_cases hwho : who = me
        · subst hwho
          rw [name_rename] at hr
          cases hr
          rw [name_rename_other, name_with_values]
          exact fun hlast => absurd (hother _ hlast) (Nat.lt_irrefl _)
        · obtain rfl := Player.eq_other_of_ne hwho
          rw [name_rename_other, name_with_values] at hr
          have hlt := hother r hr
          rw [Player.other_other, name_rename]
          intro heq
          cases heq
          exact Nat.lt_irrefl _ hlt

/-- Whether created or found, the semaphores have the same values as before. -/
theorem Sound.value_sem_open (h : s.Sound) : (s.sem_open me).2.value who = s.value who := by
  have hold : ∀ r, s.name who = some r →
      (s.sem_open me).2.values.getD r 0 = s.values.getD r 0 := by
    intro r hr
    obtain ⟨l, hl⟩ := values_sem_open s me
    rw [hl, List.getD_eq_getElem?_getD, List.getD_eq_getElem?_getD,
      List.getElem?_append_left (h.lt hr)]
  by_cases hwho : who = me
  · subst hwho
    cases hname : s.name who with
    | some r => exact value_congr ((name_sem_open_of_some hname).trans hname.symm) hold
    | none =>
        have hopen : s.sem_open who = (s.values.length,
            { s with values := s.values ++ [who.first] }.rename (some s.values.length) who) := by
          simp [Shared.sem_open, hname]
        rw [value_of_none hname, value_of_some name_sem_open, hopen, values_rename]
        simp
  · obtain rfl := Player.eq_other_of_ne hwho
    exact value_congr name_sem_open_other hold

/-- `sem_wait` takes one from a value that is positive. -/
theorem sem_wait_eq_some_iff :
    s.sem_wait r = some s' ↔
      ∃ v, s.values[r]? = some (v + 1) ∧ { s with values := s.values.set r v } = s' := by
  unfold sem_wait
  split
  case h_1 v h => simp [h]
  case h_2 h =>
    refine iff_of_false nofun ?_
    rintro ⟨v, hv, -⟩
    exact h v hv

theorem Sound.with_values (h : s.Sound) {l : List Nat} (hlength : l.length = s.values.length) :
    ({ s with values := l } : Shared).Sound := by
  constructor
  · intro who r hr
    rw [name_with_values] at hr
    exact hlength ▸ h.lt hr
  · intro who r hr
    rw [name_with_values] at hr ⊢
    exact h.apart hr

/-- What `sem_wait` does to the semaphore of a name. -/
theorem Sound.sem_wait (h : s.Sound) (hname : s.name me = some r)
    (hwait : s.sem_wait r = some s') :
    s'.Sound ∧ s'.value me + 1 = s.value me ∧ s'.value me.other = s.value me.other ∧
      (∀ who, s'.name who = s.name who) ∧ s'.printed = s.printed := by
  obtain ⟨v, hv, rfl⟩ := sem_wait_eq_some_iff.mp hwait
  refine ⟨h.with_values List.length_set, ?_, ?_, fun who => name_with_values _, rfl⟩
  · have hlt := h.lt hname
    rw [value_of_some hname, value_of_some ((name_with_values _).trans hname),
      List.getD_eq_getElem?_getD, List.getD_eq_getElem?_getD, List.getElem?_set_self hlt, hv]
    rfl
  · refine value_congr (name_with_values _) fun t ht => ?_
    have hne : r ≠ t := fun heq => h.apart hname (heq ▸ ht)
    simp [List.getD_eq_getElem?_getD, List.getElem?_set_ne hne]

/-- A semaphore with a positive value does not block. -/
theorem exists_sem_wait (hname : s.name me = some r)
    (hpos : 0 < s.value me) : ∃ s', s.sem_wait r = some s' := by
  rw [value_of_some hname, List.getD_eq_getElem?_getD] at hpos
  cases hv : s.values[r]? with
  | none =>
      rw [hv] at hpos
      exact absurd hpos (Nat.lt_irrefl 0)
  | some v =>
      rw [hv] at hpos
      obtain ⟨v, rfl⟩ := Nat.exists_eq_succ_of_ne_zero (Nat.ne_of_gt hpos)
      exact ⟨_, sem_wait_eq_some_iff.mpr ⟨v, hv, rfl⟩⟩

/-- What `sem_post` does to the semaphore of a name. -/
theorem Sound.sem_post (h : s.Sound) (hname : s.name me = some r) :
    (s.sem_post r).Sound ∧ (s.sem_post r).value me = s.value me + 1 ∧
      (s.sem_post r).value me.other = s.value me.other ∧
      (∀ who, (s.sem_post r).name who = s.name who) ∧ (s.sem_post r).printed = s.printed := by
  refine ⟨h.with_values (List.length_modify _ _ _), ?_, ?_, fun who => name_with_values _, rfl⟩
  · have hlt := h.lt hname
    have hsame : (s.sem_post r).name me = some r := (name_with_values _).trans hname
    rw [value_of_some hname, value_of_some hsame]
    simp [Shared.sem_post, List.getD_eq_getElem?_getD, hlt]
  · refine value_congr (name_with_values _) fun t ht => ?_
    have hne : r ≠ t := fun heq => h.apart hname (heq ▸ ht)
    simp [Shared.sem_post, List.getD_eq_getElem?_getD, hne]

/-- A name that is gone cannot clash. -/
theorem Sound.sem_unlink (h : s.Sound) : (s.sem_unlink me).Sound := by
  have hname : ∀ {who r}, (s.sem_unlink me).name who = some r →
      who = me.other ∧ s.name who = some r := by
    intro who r hr
    by_cases hwho : who = me
    · subst hwho
      rw [Shared.sem_unlink, name_rename] at hr
      cases hr
    · obtain rfl := Player.eq_other_of_ne hwho
      rw [Shared.sem_unlink, name_rename_other] at hr
      exact ⟨rfl, hr⟩
  constructor
  · intro who r hr
    rw [Shared.sem_unlink, values_rename]
    exact h.lt (hname hr).2
  · intro who r hr hother
    have hwho := (hname hr).1
    have hwho' := (hname hother).1
    rw [hwho, Player.other_other] at hwho'
    exact absurd hwho'.symm (Player.other_ne me)

end Shared

/-! ## What every run keeps -/

namespace Phase

/-- How often the program has taken from its semaphore. -/
def taken (n : Nat) : Phase → Nat
  | .openPing | .openPong _ => 0
  | .wait _ _ c => n - c
  | .print _ _ c | .post _ _ c => n - c + 1
  | .unlinkPing | .unlinkPong | .returned => n

/-- How often it has printed its line. -/
def prints (n : Nat) : Phase → Nat
  | .openPing | .openPong _ => 0
  | .wait _ _ c | .print _ _ c => n - c
  | .post _ _ c => n - c + 1
  | .unlinkPing | .unlinkPong | .returned => n

/-- How often it has posted the other semaphore. -/
def posted (n : Nat) : Phase → Nat
  | .openPing | .openPong _ => 0
  | .wait _ _ c | .print _ _ c | .post _ _ c => n - c
  | .unlinkPing | .unlinkPong | .returned => n

/-- The counter lies between its bounds, and only the second program unlinks. -/
def Bounded (me : Player) (n : Nat) : Phase → Prop
  | .openPing | .openPong _ | .returned => True
  | .wait _ _ c => c ≤ n
  | .print _ _ c | .post _ _ c => 0 < c ∧ c ≤ n
  | .unlinkPing | .unlinkPong => me = .pong

/-- The variables that the program still uses hold the semaphores of the names. -/
def Knows (s : Shared) : Phase → Prop
  | .openPong r => s.name .ping = some r
  | .wait r t c | .print r t c | .post r t c =>
      0 < c → s.name .ping = some r ∧ s.name .pong = some t
  | _ => True

/-- The program has left its loop. -/
def left : Phase → Bool
  | .unlinkPing | .unlinkPong | .returned => true
  | _ => false

variable {n : Nat} {p : Phase} {me : Player} {s s' : Shared}

theorem posted_le_prints : p.posted n ≤ p.prints n := by
  cases p <;> simp [posted, prints]

theorem prints_le_taken : p.prints n ≤ p.taken n := by
  cases p <;> simp [prints, taken]

theorem posted_le (p : Phase) : p.posted n ≤ n := by
  cases p <;> simp [posted]

/-- The first program, when it has posted as often as it will, is at the end of its loop. -/
theorem finished_cases (hn : 0 < n) (hbounded : p.Bounded .ping n) (hposted : p.posted n = n) :
    (∃ r t, p = .wait r t 0) ∨ p = .returned := by
  cases p with
  | openPing => exact absurd hposted (Nat.ne_of_lt hn)
  | openPong r => exact absurd hposted (Nat.ne_of_lt hn)
  | wait r t c =>
      simp only [Bounded, posted] at hbounded hposted
      obtain rfl : c = 0 := by omega
      exact Or.inl ⟨r, t, rfl⟩
  | print r t c =>
      simp only [Bounded, posted] at hbounded hposted
      omega
  | post r t c =>
      simp only [Bounded, posted] at hbounded hposted
      omega
  | unlinkPing => cases hbounded
  | unlinkPong => cases hbounded
  | returned => exact Or.inr rfl

/-- A program that uses the semaphores knows the one it waits on and the one it posts. -/
theorem knows_pick {r t : Nat} (h : s.name .ping = some r ∧ s.name .pong = some t)
    (who : Player) : s.name who = some (who.pick r t) := by
  cases who
  · exact h.1
  · exact h.2

theorem Knows.mono (h : p.Knows s)
    (hname : ∀ who r, s.name who = some r → s'.name who = some r) : p.Knows s' := by
  cases p with
  | openPong r => exact hname _ _ h
  | wait r t c => exact fun hc => ⟨hname _ _ (h hc).1, hname _ _ (h hc).2⟩
  | print r t c => exact fun hc => ⟨hname _ _ (h hc).1, hname _ _ (h hc).2⟩
  | post r t c => exact fun hc => ⟨hname _ _ (h hc).1, hname _ _ (h hc).2⟩
  | _ => trivial

end Phase

variable {n : Nat} {me : Player} {s s' : Shared} {p p' : Phase}

namespace Step

/-- The counter stays within its bounds. -/
theorem bounded (h : Step me n s p s' p') (hbounded : p.Bounded me n) : p'.Bounded me n := by
  cases h with
  | openPong r => exact Nat.le_refl n
  | wait r t c hwait => exact ⟨Nat.succ_pos c, hbounded⟩
  | post r t c => exact Nat.le_trans (Nat.sub_le c 1) hbounded.2
  | leave r t =>
      cases me
      · trivial
      · rfl
  | openPing => trivial
  | unlinkPong => trivial
  | print r t c => exact hbounded
  | unlinkPing => exact hbounded

/-- What a step in the loop, or before it, does: the semaphores keep their names, and what is
taken from the one of the program or posted to the other one is counted. -/
theorem counted (h : Step me n s p s' p') (hsound : s.Sound) (hknows : p.Knows s)
    (hbounded : p.Bounded me n) (hleft : p.left = false) :
    s'.Sound ∧ (∀ who r, s.name who = some r → s'.name who = some r) ∧ p'.Knows s' ∧
      s'.value me + p'.taken n = s.value me + p.taken n ∧
      s'.value me.other + p.posted n = s.value me.other + p'.posted n := by
  cases h with
  | openPing =>
      refine ⟨hsound.sem_open, fun who r => Shared.name_sem_open_of_some,
        Shared.name_sem_open, ?_, ?_⟩
      · rw [hsound.value_sem_open]
        rfl
      · rw [hsound.value_sem_open]
        rfl
  | openPong r =>
      refine ⟨hsound.sem_open, fun who r => Shared.name_sem_open_of_some,
        fun _ => ⟨Shared.name_sem_open_of_some hknows, Shared.name_sem_open⟩, ?_, ?_⟩
      · rw [hsound.value_sem_open]
        simp [Phase.taken]
      · rw [hsound.value_sem_open]
        simp [Phase.posted]
  | leave r t =>
      refine ⟨hsound, fun who r hr => hr, ?_, ?_, ?_⟩
      · cases me <;> trivial
      · cases me <;> rfl
      · cases me <;> rfl
  | wait r t c hwait =>
      have hnames := hknows (Nat.succ_pos c)
      obtain ⟨hsound', hown, hother, hname, -⟩ :=
        hsound.sem_wait (Phase.knows_pick hnames me) hwait
      refine ⟨hsound', fun who r hr => (hname who).trans hr,
        fun _ => ⟨(hname _).trans hnames.1, (hname _).trans hnames.2⟩, ?_, ?_⟩
      · simp only [Phase.taken]
        omega
      · rw [hother]
        rfl
  | print r t c =>
      have hprinted : ∀ who, ({ s with printed := s.printed ++ [me.line] } : Shared).name who =
          s.name who := fun who => Shared.name_with_printed _
      have hvalue : ∀ who, ({ s with printed := s.printed ++ [me.line] } : Shared).value who =
          s.value who := fun who => Shared.value_congr (hprinted who) fun _ _ => rfl
      refine ⟨⟨fun hr => hsound.lt ((hprinted _).symm.trans hr), fun hr hother => ?_⟩,
        fun who r hr => (hprinted who).trans hr, hknows.mono fun who r => (hprinted who).trans,
        ?_, ?_⟩
      · exact hsound.apart ((hprinted _).symm.trans hr) ((hprinted _).symm.trans hother)
      · rw [hvalue]
        rfl
      · rw [hvalue]
        rfl
  | post r t c =>
      have hnames := hknows hbounded.1
      obtain ⟨hsound', hown, hother, hname, -⟩ :=
        hsound.sem_post (Phase.knows_pick hnames me.other)
      rw [Player.other_other] at hother
      refine ⟨hsound', fun who r hr => (hname who).trans hr,
        fun _ => ⟨(hname _).trans hnames.1, (hname _).trans hnames.2⟩, ?_, ?_⟩
      · have hc := hbounded.1
        have hle := hbounded.2
        simp only [Phase.taken]
        omega
      · have hc := hbounded.1
        have hle := hbounded.2
        simp only [Phase.posted]
        omega
  | unlinkPing => cases hleft
  | unlinkPong => cases hleft

/-- From its loop the second program goes to where it unlinks the first name. -/
theorem names_stay (h : Step .pong n s p s' p') (hleft : p.left = false) :
    p' ≠ .unlinkPong ∧ p' ≠ .returned := by
  cases h with
  | unlinkPing => cases hleft
  | unlinkPong => cases hleft
  | _ => exact ⟨nofun, nofun⟩

/-- Nothing is printed but by the step that is counted as a print. -/
theorem printed (h : Step me n s p s' p') (hsound : s.Sound) (hknows : p.Knows s)
    (hbounded : p.Bounded me n) :
    s'.printed = s.printed ∧ p'.prints n = p.prints n ∨
      s'.printed = s.printed ++ [me.line] ∧ p'.prints n = p.prints n + 1 ∧
        ∃ r t c, p = .print r t c := by
  cases h with
  | openPing => exact Or.inl ⟨Shared.printed_sem_open, rfl⟩
  | openPong r => exact Or.inl ⟨Shared.printed_sem_open, Nat.sub_self n⟩
  | leave r t =>
      refine Or.inl ⟨rfl, ?_⟩
      cases me <;> rfl
  | wait r t c hwait =>
      have hnames := hknows (Nat.succ_pos c)
      exact Or.inl ⟨(hsound.sem_wait (Phase.knows_pick hnames me) hwait).2.2.2.2, rfl⟩
  | print r t c => exact Or.inr ⟨rfl, rfl, r, t, c, rfl⟩
  | post r t c =>
      have hc := hbounded.1
      have hle := hbounded.2
      refine Or.inl ⟨rfl, ?_⟩
      simp only [Phase.prints]
      omega
  | unlinkPing => exact Or.inl ⟨Shared.printed_rename _ _ _, rfl⟩
  | unlinkPong => exact Or.inl ⟨Shared.printed_rename _ _ _, rfl⟩

end Step

/-- The lines that the programs have printed. -/
def Game.prints (n : Nat) (g : Game) : Nat :=
  g.ping.prints n + g.pong.prints n

/-- The state of the two programs.  While the second one is in its loop, the values of the
semaphores and what is taken from them is what has been posted, and the first value. -/
structure Inv (n : Nat) (g : Game) : Prop where
  sound : g.shared.Sound
  bounded : ∀ who, (g.phase who).Bounded who n
  knows : ∀ who, (g.phase who).Knows g.shared
  counts : g.pong.left = false → ∀ who : Player,
    g.shared.value who + (g.phase who).taken n = who.first + (g.phase who.other).posted n
  finished : g.pong.left = true → g.ping.posted n = n
  gonePing : g.pong = .unlinkPong ∨ g.pong = .returned → g.shared.SEM_PING = none
  gonePong : g.pong = .returned → g.shared.SEM_PONG = none
  printed : g.shared.printed = linesOfTurns (g.prints n)

variable {g g' : Game}

namespace Inv

/-- The counts of both semaphores. -/
theorem both_counts (h : Inv n g) (hpong : g.pong.left = false) :
    g.shared.value .ping + g.ping.taken n = 1 + g.pong.posted n ∧
      g.shared.value .pong + g.pong.taken n = g.ping.posted n := by
  refine ⟨h.counts hpong .ping, ?_⟩
  have hcounts := h.counts hpong .pong
  simp only [Player.first, Nat.zero_add] at hcounts
  exact hcounts

/-- A program at its print has the turn. -/
theorem turn (h : Inv n g) (hpong : g.pong.left = false) {r t c : Nat}
    (hphase : g.phase me = .print r t c) : lineOfTurn (g.prints n) = me.line := by
  obtain ⟨hping, hpong⟩ := h.both_counts hpong
  have hposted₁ := g.ping.posted_le_prints (n := n)
  have hprints₁ := g.ping.prints_le_taken (n := n)
  have hposted₂ := g.pong.posted_le_prints (n := n)
  have hprints₂ := g.pong.prints_le_taken (n := n)
  cases me with
  | ping =>
      -- the other program has taken no more, and posted no less, than this one has printed
      replace hphase : g.ping = .print r t c := hphase
      have htaken : g.ping.taken n = n - c + 1 := by rw [hphase]; rfl
      have hposted : g.ping.posted n = n - c := by rw [hphase]; rfl
      have hprints : g.ping.prints n = n - c := by rw [hphase]; rfl
      have heven : g.prints n = 2 * (n - c) := by
        unfold Game.prints
        omega
      rw [heven, lineOfTurn, if_pos (Nat.mul_mod_right 2 (n - c))]
  | pong =>
      replace hphase : g.pong = .print r t c := hphase
      have htaken : g.pong.taken n = n - c + 1 := by rw [hphase]; rfl
      have hposted : g.pong.posted n = n - c := by rw [hphase]; rfl
      have hprints : g.pong.prints n = n - c := by rw [hphase]; rfl
      have hodd : g.prints n = 2 * (n - c) + 1 := by
        unfold Game.prints
        omega
      rw [hodd, lineOfTurn, if_neg (by omega)]

/-- The output, over a step. -/
theorem printed_step (h : Inv n g) (hpong : g.pong.left = false)
    (hstep : Step me n g.shared (g.phase me) s' p') :
    s'.printed = linesOfTurns ((g.move (s', p') me).prints n) := by
  have hmove : (g.move (s', p') me).prints n + (g.phase me).prints n =
      g.prints n + p'.prints n := by
    cases me <;> simp only [Game.prints, Game.move, Game.phase] <;> omega
  obtain ⟨hprinted, hprints⟩ | ⟨hprinted, hprints, r, t, c, hphase⟩ :=
    hstep.printed h.sound (h.knows me) (h.bounded me)
  · rw [hprinted, h.printed]
    congr 1
    omega
  · have hnext : (g.move (s', p') me).prints n = g.prints n + 1 := by omega
    rw [hprinted, h.printed, hnext, linesOfTurns_succ, h.turn hpong hphase]

/-- Both programs are as before, but for the one with the step. -/
theorem forall_phase {P : Player → Phase → Prop} {next : Shared × Phase} (hown : P me next.2)
    (hother : P me.other (g.phase me.other)) (who : Player) :
    P who ((g.move next me).phase who) := by
  by_cases hwho : who = me
  · subst hwho
    rwa [Game.phase_move]
  · obtain rfl := Player.eq_other_of_ne hwho
    rwa [Game.phase_move_other]

/-- A step while the second program is in its loop, or before it. -/
theorem step_inside (h : Inv n g) (hpong : g.pong.left = false)
    (hstep : Step me n g.shared (g.phase me) s' p') : Inv n (g.move (s', p') me) := by
  have hbounded := h.bounded me
  have hleft : (g.phase me).left = false := by
    cases me with
    | pong => exact hpong
    | ping =>
        -- the first program never unlinks, and takes no step where it has returned
        cases hphase : g.phase .ping with
        | unlinkPing => rw [hphase] at hbounded; cases hbounded
        | unlinkPong => rw [hphase] at hbounded; cases hbounded
        | returned => rw [hphase] at hstep; cases hstep
        | _ => rfl
  obtain ⟨hsound, hnames, hknows, hown, hother⟩ :=
    hstep.counted h.sound (h.knows me) hbounded hleft
  have hcounts : ∀ who : Player, s'.value who + ((g.move (s', p') me).phase who).taken n =
      who.first + ((g.move (s', p') me).phase who.other).posted n := by
    have hme := h.counts hpong me
    have hyou := h.counts hpong me.other
    rw [Player.other_other] at hyou
    intro who
    by_cases hwho : who = me
    · subst hwho
      rw [Game.phase_move, Game.phase_move_other]
      simp only
      omega
    · obtain rfl := Player.eq_other_of_ne hwho
      rw [Player.other_other, Game.phase_move, Game.phase_move_other]
      simp only
      omega
  have hgone : (g.move (s', p') me).pong ≠ .unlinkPong ∧
      (g.move (s', p') me).pong ≠ .returned := by
    cases me with
    | ping =>
        constructor
        · intro heq
          rw [show g.pong = .unlinkPong from heq] at hpong
          cases hpong
        · intro heq
          rw [show g.pong = .returned from heq] at hpong
          cases hpong
    | pong => exact hstep.names_stay hpong
  refine ⟨?_, ?_, ?_, ?_, ?_, ?_, ?_, ?_⟩
  · rwa [Game.shared_move]
  · exact forall_phase (P := fun who p => p.Bounded who n) (hstep.bounded hbounded)
      (h.bounded me.other)
  · rw [Game.shared_move]
    exact forall_phase (P := fun _ p => p.Knows s') hknows ((h.knows me.other).mono hnames)
  · intro _ who
    rw [Game.shared_move]
    exact hcounts who
  · intro hnow
    have hlast := hcounts .pong
    have htaken : (g.move (s', p') me).pong.taken n = n := by
      cases hphase : (g.move (s', p') me).pong <;> simp_all [Phase.taken, Phase.left]
    have hle := (g.move (s', p') me).ping.posted_le (n := n)
    simp only [Player.first, Player.other, Game.phase] at hlast
    omega
  · exact fun hnow => absurd hnow (not_or.mpr hgone)
  · exact fun hnow => absurd hnow hgone.2
  · rw [Game.shared_move]
    exact h.printed_step hpong hstep

/-- A step after the second program has left its loop. -/
theorem step_outside (hn : 0 < n) (h : Inv n g) (hpong : g.pong.left = true)
    (hstep : Step me n g.shared (g.phase me) s' p') : Inv n (g.move (s', p') me) := by
  have hping := Phase.finished_cases hn (h.bounded .ping) (h.finished hpong)
  have hknows : ∀ s, g.ping.Knows s := by
    intro s
    rcases hping with ⟨r, t, hphase⟩ | hphase
    · replace hphase : g.ping = .wait r t 0 := hphase
      rw [hphase]
      exact fun hlt => absurd hlt (Nat.lt_irrefl 0)
    · replace hphase : g.ping = .returned := hphase
      rw [hphase]
      trivial
  have hprinted : g.pong.prints n = n → p'.prints n = n →
      linesOfTurns (g.prints n) = linesOfTurns ((g.move (s', p') .pong).prints n) := by
    intro hbefore hafter
    simp only [Game.prints, Game.move, hbefore, hafter]
  cases me with
  | ping =>
      rcases hping with ⟨r, t, hphase⟩ | hphase
      · rw [hphase] at hstep
        cases hstep
        replace hphase : g.ping = .wait r t 0 := hphase
        refine ⟨h.sound, ?_, ?_, fun hin => ?_, fun _ => rfl, h.gonePing, h.gonePong, ?_⟩
        · exact forall_phase (P := fun who p => p.Bounded who n) trivial (h.bounded .pong)
        · exact forall_phase (P := fun _ p => p.Knows g.shared) trivial (h.knows .pong)
        · exact absurd (hpong.symm.trans hin) Bool.noConfusion
        · have hprints : g.ping.prints n = n := by rw [hphase]; rfl
          refine h.printed.trans ?_
          simp only [Game.prints, Game.move, hprints]
          rfl
      · rw [hphase] at hstep
        cases hstep
  | pong =>
      cases hphase : g.phase .pong with
      | unlinkPing =>
          rw [hphase] at hstep
          cases hstep
          have hprints : g.pong.prints n = n := by
            rw [show g.pong = .unlinkPing from hphase]
            rfl
          have hsound : (g.shared.sem_unlink .ping).Sound := h.sound.sem_unlink
          refine ⟨hsound, ?_, ?_, nofun, fun _ => h.finished hpong, fun _ => rfl,
            nofun, ?_⟩
          · exact forall_phase (P := fun who p => p.Bounded who n) rfl (h.bounded .ping)
          · exact forall_phase (P := fun _ p => p.Knows (g.shared.sem_unlink .ping)) trivial
              (hknows _)
          · exact h.printed.trans (hprinted hprints rfl)
      | unlinkPong =>
          rw [hphase] at hstep
          cases hstep
          have hprints : g.pong.prints n = n := by
            rw [show g.pong = .unlinkPong from hphase]
            rfl
          have hsound : (g.shared.sem_unlink .pong).Sound := h.sound.sem_unlink
          refine ⟨hsound, ?_, ?_, nofun, fun _ => h.finished hpong,
            fun _ => h.gonePing (Or.inl hphase), fun _ => rfl, ?_⟩
          · exact forall_phase (P := fun who p => p.Bounded who n) trivial (h.bounded .ping)
          · exact forall_phase (P := fun _ p => p.Knows (g.shared.sem_unlink .pong)) trivial
              (hknows _)
          · exact h.printed.trans (hprinted hprints rfl)
      | returned =>
          rw [hphase] at hstep
          cases hstep
      | _ =>
          rw [show g.pong = _ from hphase] at hpong
          cases hpong

/-- A step keeps it all. -/
theorem step (hn : 0 < n) (h : Inv n g) (hstep : (machine n).step g me = some g') :
    Inv n g' := by
  obtain ⟨⟨s', p'⟩, hmain, rfl⟩ := step_eq_some_iff.mp hstep
  cases hpong : g.pong.left with
  | false => exact h.step_inside hpong (step_of_main hmain)
  | true => exact h.step_outside hn hpong (step_of_main hmain)

/-- At the start the names stand for nothing. -/
theorem start (h : (machine n).start g) : Inv n g := by
  obtain ⟨hping, hpong, hprinted, hfirst, hsecond⟩ := h
  have hname : ∀ who, g.shared.name who = none := by
    intro who
    cases who
    · exact hping
    · exact hpong
  have hphase : ∀ who, g.phase who = .openPing := by
    intro who
    cases who
    · exact hfirst
    · exact hsecond
  refine ⟨⟨fun hr => ?_, fun hr => ?_⟩, fun who => ?_, fun who => ?_, fun _ who => ?_,
    fun hleft => ?_, fun _ => hping, fun _ => hpong, ?_⟩
  · rw [hname] at hr
    cases hr
  · rw [hname] at hr
    cases hr
  · rw [hphase]
    trivial
  · rw [hphase]
    trivial
  · rw [hphase, hphase, Shared.value_of_none (hname who)]
    rfl
  · rw [hsecond] at hleft
    cases hleft
  · rw [hprinted, Game.prints, hfirst, hsecond]
    rfl

end Inv

/-- Every run keeps the invariant. -/
theorem inv_of_reached (hn : 0 < n) (h : (machine n).Reached g) : Inv n g :=
  Machine.ReachedBy.invariant (fun _ hstart => Inv.start hstart)
    (fun _ _ _ h _ => h.step hn) h

/-! ## The results -/

/-- How many steps a program takes after its loop. -/
def Phase.atEnd : Phase → Nat
  | .unlinkPing => 2
  | .unlinkPong => 1
  | _ => 0

/-- How many steps a program has before it. -/
def Phase.weight (me : Player) (n : Nat) : Phase → Nat
  | .openPing => 3 * n + 3 + me.leave.atEnd
  | .openPong _ => 3 * n + 2 + me.leave.atEnd
  | .wait _ _ c => 3 * c + 1 + me.leave.atEnd
  | .print _ _ c => 3 * c + me.leave.atEnd
  | .post _ _ c => 3 * c - 1 + me.leave.atEnd
  | p => p.atEnd

/-- Every step is one of those the program has before it. -/
theorem Step.weight (h : Step me n s p s' p') (hbounded : p.Bounded me n) :
    p'.weight me n + 1 = p.weight me n := by
  cases h with
  | leave r t =>
      cases me <;> simp [Phase.weight, Player.leave, Phase.atEnd]
  | post r t c =>
      have hc := hbounded.1
      simp only [Phase.weight]
      omega
  | wait r t c hwait =>
      simp only [Phase.weight]
      omega
  | print r t c =>
      have hc := hbounded.1
      simp only [Phase.weight]
      omega
  | openPing => simp only [Phase.weight]; omega
  | openPong r => simp only [Phase.weight]; omega
  | unlinkPing => rfl
  | unlinkPong => rfl

/-- How many steps the two programs have before them. -/
def Game.rank (n : Nat) (g : Game) : Nat :=
  g.ping.weight .ping n + g.pong.weight .pong n

theorem Inv.rank_step (h : Inv n g) (hstep : (machine n).step g me = some g') :
    g'.rank n + 1 = g.rank n := by
  obtain ⟨⟨s', p'⟩, hmain, rfl⟩ := step_eq_some_iff.mp hstep
  have hweight := (step_of_main hmain).weight (h.bounded me)
  cases me <;> simp only [Game.rank, Game.move, Game.phase] at * <;> omega

/-- A program that cannot go on waits for a post, or has returned. -/
theorem blocked (hknows : p.Knows s) (hmain : main me n s p = none) :
    (∃ r t c, p = .wait r t (c + 1) ∧ s.value me = 0) ∨ p = .returned := by
  unfold main at hmain
  split at hmain
  case h_4 r t c =>
    refine Or.inl ⟨r, t, c, rfl, ?_⟩
    by_contra hpos
    have hname := Phase.knows_pick (hknows (Nat.succ_pos c)) me
    obtain ⟨s', hwait⟩ := Shared.exists_sem_wait hname (Nat.pos_of_ne_zero hpos)
    rw [hwait] at hmain
    cases hmain
  case h_9 => exact Or.inr rfl
  all_goals cases hmain

/-- Where neither program can go on, both have returned. -/
theorem Inv.of_stuck (hn : 0 < n) (h : Inv n g)
    (hstuck : ∀ me, (machine n).step g me = none) : g.ping = .returned ∧ g.pong = .returned := by
  have hmain : ∀ me, main me n g.shared (g.phase me) = none := by
    intro me
    have hme := hstuck me
    cases me <;> exact Option.map_eq_none_iff.mp hme
  have hping := blocked (h.knows .ping) (hmain .ping)
  have hpong := blocked (h.knows .pong) (hmain .pong)
  have hle := h.bounded .ping
  have hle' := h.bounded .pong
  cases hleft : g.pong.left with
  | true =>
      rcases hpong with ⟨r, t, c, hphase, -⟩ | hphase
      · rw [show g.pong = .wait r t (c + 1) from hphase] at hleft
        cases hleft
      · refine ⟨?_, hphase⟩
        rcases Phase.finished_cases hn hle (h.finished hleft) with ⟨r, t, hwait⟩ | hreturned
        · have hgo := hmain .ping
          rw [hwait] at hgo
          cases hgo
        · exact hreturned
  | false =>
      exfalso
      obtain ⟨hfirst, hsecond⟩ := h.both_counts hleft
      rcases hpong with ⟨r', t', c', hphase', hzero'⟩ | hphase'
      · replace hphase' : g.pong = .wait r' t' (c' + 1) := hphase'
        have htaken' : g.pong.taken n = n - (c' + 1) := by rw [hphase']; rfl
        have hposted' : g.pong.posted n = n - (c' + 1) := by rw [hphase']; rfl
        rw [show g.phase .pong = _ from hphase'] at hle'
        simp only [Phase.Bounded] at hle'
        rcases hping with ⟨r, t, c, hphase, hzero⟩ | hphase
        · replace hphase : g.ping = .wait r t (c + 1) := hphase
          have htaken : g.ping.taken n = n - (c + 1) := by rw [hphase]; rfl
          have hposted : g.ping.posted n = n - (c + 1) := by rw [hphase]; rfl
          omega
        · replace hphase : g.ping = .returned := hphase
          have hposted : g.ping.posted n = n := by rw [hphase]; rfl
          omega
      · rw [show g.pong = .returned from hphase'] at hleft
        cases hleft

/-- The second program is started first, and creates the first semaphore. -/
def sampleRun : List Player :=
  [.pong, .ping, .ping, .pong, .ping, .ping, .ping, .pong, .pong, .ping, .pong, .pong, .pong,
    .pong]

/-- The programs with `counter` at one, before they start. -/
def sampleStart : Game where
  shared := { SEM_PING := none, SEM_PONG := none, values := [], printed := [] }
  ping := .openPing
  pong := .openPing

theorem sampleRun_eq : (machine 1).run sampleStart sampleRun = some
    { shared := { SEM_PING := none, SEM_PONG := none, values := [1, 0],
                  printed := ["Ping is sent\n", "Pong is sent\n\n"] }
      ping := .returned
      pong := .returned } := rfl

end PingPong
end Sys
end InfinityLabs
