import InfinityLabs.Lib.FixedWindows
import Mathlib.Algebra.Order.Group.Int

/-!
# The rate limiter of the chat

`RateLimiter` of `socket.handler.js` counts the calls of a key in windows.  The first
call after a window is over opens the next one; nothing happens between the calls.
Times are whole milliseconds that never go back, and `max` is a whole number.

Over a run of calls each key has its own log of windows, in which the limiter's entry is
the newest one.
-/

namespace InfinityLabs
namespace Server

open Lib

universe u

/-- An entry of `#counts`. -/
structure RateEntry where
  count : Nat
  resetAt : Int
  deriving DecidableEq, Repr

/-- `RateLimiter`. -/
structure RateLimiter (κ : Type u) where
  counts : κ → Option RateEntry
  windowMs : Int
  max : Nat

/-- A call `allow(key)`, and what `Date.now()` says in it. -/
structure RateCall (κ : Type u) where
  now : Int
  key : κ

namespace RateLimiter

variable {κ : Type u}

/-- The constructor. -/
def new (windowMs : Int) (max : Nat) : RateLimiter κ :=
  ⟨fun _ => none, windowMs, max⟩

variable [DecidableEq κ]

/-- `this.#counts.set(key, entry)`. -/
def set (limiter : RateLimiter κ) (key : κ) (entry : RateEntry) : RateLimiter κ :=
  { limiter with counts := fun other => if other = key then some entry else limiter.counts other }

/-- `allow`. -/
def allow (limiter : RateLimiter κ) (now : Int) (key : κ) : RateLimiter κ × Bool :=
  match limiter.counts key with
  | none => (limiter.set key ⟨1, now + limiter.windowMs⟩, true)
  | some entry =>
      if now > entry.resetAt then (limiter.set key ⟨1, now + limiter.windowMs⟩, true)
      else if entry.count ≥ limiter.max then (limiter, false)
      else (limiter.set key { entry with count := entry.count + 1 }, true)

/-- The call opens a window for its key. -/
def opens (limiter : RateLimiter κ) (now : Int) (key : κ) : Bool :=
  match limiter.counts key with
  | none => true
  | some entry => now > entry.resetAt

/-! ## Runs -/

/-- The limiter after some calls. -/
def after (limiter : RateLimiter κ) : List (RateCall κ) → RateLimiter κ
  | [] => limiter
  | call :: calls => (limiter.allow call.now call.key).1.after calls

/-- The answers to some calls. -/
def answers (limiter : RateLimiter κ) : List (RateCall κ) → List Bool
  | [] => []
  | call :: calls =>
      (limiter.allow call.now call.key).2 :: (limiter.allow call.now call.key).1.answers calls

/-- The answers to the calls for one key. -/
def answersTo (key : κ) (limiter : RateLimiter κ) : List (RateCall κ) → List Bool
  | [] => []
  | call :: calls =>
      (if call.key = key then [(limiter.allow call.now call.key).2] else []) ++
        (limiter.allow call.now call.key).1.answersTo key calls

/-- The times at which a key is allowed. -/
def allowed (key : κ) (limiter : RateLimiter κ) : List (RateCall κ) → List Int
  | [] => []
  | call :: calls =>
      (if call.key = key ∧ (limiter.allow call.now call.key).2 = true then [call.now] else []) ++
        (limiter.allow call.now call.key).1.allowed key calls

/-- The times at which the windows of a key open. -/
def openings (key : κ) (limiter : RateLimiter κ) : List (RateCall κ) → List Int
  | [] => []
  | call :: calls =>
      (if call.key = key ∧ limiter.opens call.now call.key = true then [call.now] else []) ++
        (limiter.allow call.now call.key).1.openings key calls

/-! ## One call -/

/-- A call does one of three things. -/
inductive AllowCase (limiter : RateLimiter κ) (now : Int) (key : κ) :
    Bool → RateLimiter κ × Bool → Prop
  | opened (hover : ∀ entry, limiter.counts key = some entry → entry.resetAt < now) :
      AllowCase limiter now key true (limiter.set key ⟨1, now + limiter.windowMs⟩, true)
  | refused {entry : RateEntry} (hentry : limiter.counts key = some entry)
      (hin : now ≤ entry.resetAt) (hfull : limiter.max ≤ entry.count) :
      AllowCase limiter now key false (limiter, false)
  | counted {entry : RateEntry} (hentry : limiter.counts key = some entry)
      (hin : now ≤ entry.resetAt) (hroom : entry.count < limiter.max) :
      AllowCase limiter now key false
        (limiter.set key { entry with count := entry.count + 1 }, true)

/-- **What a call does.** -/
theorem allow_cases (limiter : RateLimiter κ) (now : Int) (key : κ) :
    AllowCase limiter now key (limiter.opens now key) (limiter.allow now key) := by
  rw [opens, allow]
  cases hentry : limiter.counts key with
  | none => exact .opened fun entry hsome => by rw [hentry] at hsome; cases hsome
  | some entry =>
      simp only
      -- a window that is over is opened again, whatever was counted in it
      by_cases hover : now > entry.resetAt
      · rw [if_pos hover, decide_eq_true hover]
        refine .opened fun other hsome => ?_
        rw [hentry] at hsome
        exact Option.some.inj hsome ▸ hover
      · rw [if_neg hover, decide_eq_false hover]
        by_cases hfull : entry.count ≥ limiter.max
        · rw [if_pos hfull]
          exact .refused hentry (Int.le_of_not_gt hover) hfull
        · rw [if_neg hfull]
          exact .counted hentry (Int.le_of_not_gt hover) (Nat.lt_of_not_le hfull)

@[simp] theorem set_windowMs (limiter : RateLimiter κ) (key : κ) (entry : RateEntry) :
    (limiter.set key entry).windowMs = limiter.windowMs := rfl

@[simp] theorem set_max (limiter : RateLimiter κ) (key : κ) (entry : RateEntry) :
    (limiter.set key entry).max = limiter.max := rfl

@[simp] theorem set_counts_self (limiter : RateLimiter κ) (key : κ) (entry : RateEntry) :
    (limiter.set key entry).counts key = some entry := if_pos rfl

/-- The entries of the other keys stay. -/
theorem set_counts_of_ne (limiter : RateLimiter κ) {key other : κ} (hne : other ≠ key)
    (entry : RateEntry) : (limiter.set key entry).counts other = limiter.counts other :=
  if_neg hne

/-- A call changes neither the width of the windows nor the bound, and no entry of another
key. -/
theorem allow_frame (limiter : RateLimiter κ) (now : Int) (key : κ) :
    (limiter.allow now key).1.windowMs = limiter.windowMs ∧
      (limiter.allow now key).1.max = limiter.max ∧
        ∀ other, other ≠ key →
          (limiter.allow now key).1.counts other = limiter.counts other := by
  have hcase := allow_cases limiter now key
  generalize limiter.allow now key = result at hcase ⊢
  generalize limiter.opens now key = opened at hcase
  cases hcase with
  | opened _ => exact ⟨rfl, rfl, fun other hne => set_counts_of_ne limiter hne _⟩
  | refused _ _ _ => exact ⟨rfl, rfl, fun _ _ => rfl⟩
  | counted _ _ _ => exact ⟨rfl, rfl, fun other hne => set_counts_of_ne limiter hne _⟩

/-- A refused call leaves the limiter. -/
theorem allow_refused {limiter : RateLimiter κ} {now : Int} {key : κ}
    (hrefused : (limiter.allow now key).2 = false) : (limiter.allow now key).1 = limiter := by
  have hcase := allow_cases limiter now key
  generalize limiter.allow now key = result at hcase hrefused ⊢
  generalize limiter.opens now key = opened at hcase
  cases hcase with
  | opened _ => cases hrefused
  | refused _ _ _ => rfl
  | counted _ _ _ => cases hrefused

/-! ## One key -/

/-- Two limiters that do the same for a key. -/
structure Agree (key : κ) (limiter limiter' : RateLimiter κ) : Prop where
  counts : limiter.counts key = limiter'.counts key
  windowMs : limiter.windowMs = limiter'.windowMs
  max : limiter.max = limiter'.max

/-- A call for the key has the same answer and keeps the agreement. -/
theorem Agree.allow {key : κ} {limiter limiter' : RateLimiter κ}
    (h : Agree key limiter limiter') (now : Int) :
    (limiter.allow now key).2 = (limiter'.allow now key).2 ∧
      Agree key (limiter.allow now key).1 (limiter'.allow now key).1 := by
  obtain ⟨hcounts, hwindow, hmax⟩ := h
  rw [RateLimiter.allow, RateLimiter.allow, ← hcounts, ← hwindow, ← hmax]
  cases limiter.counts key with
  | none => exact ⟨rfl, by simp, hwindow, hmax⟩
  | some entry =>
      simp only
      split
      · exact ⟨rfl, by simp, hwindow, hmax⟩
      · split
        · exact ⟨rfl, hcounts, hwindow, hmax⟩
        · exact ⟨rfl, by simp, hwindow, hmax⟩

/-- A call for another key keeps the agreement. -/
theorem Agree.allow_other {key : κ} {limiter limiter' : RateLimiter κ}
    (h : Agree key limiter limiter') (now : Int) {other : κ} (hne : other ≠ key) :
    Agree key (limiter.allow now other).1 limiter' := by
  obtain ⟨hwindow, hmax, hcounts⟩ := limiter.allow_frame now other
  exact ⟨(hcounts key (Ne.symm hne)).trans h.counts, hwindow.trans h.windowMs, hmax.trans h.max⟩

/-- The answers for a key are those that a limiter gives which is called for it alone. -/
theorem Agree.answersTo {key : κ} {limiter limiter' : RateLimiter κ}
    (h : Agree key limiter limiter') (calls : List (RateCall κ)) :
    limiter.answersTo key calls = limiter'.answers (calls.filter fun call => call.key = key) := by
  induction calls generalizing limiter limiter' with
  | nil => rfl
  | cons call calls ih =>
      by_cases hkey : call.key = key
      · subst hkey
        obtain ⟨hsame, hagree⟩ := h.allow call.now
        rw [RateLimiter.answersTo, if_pos rfl, List.filter_cons_of_pos (by simp),
          RateLimiter.answers, hsame, ih hagree]
        rfl
      · rw [RateLimiter.answersTo, if_neg hkey, List.filter_cons_of_neg (by simp [hkey]),
          List.nil_append, ih (h.allow_other call.now hkey)]

/-! ## The log of a key -/

/-- The log of a key's windows up to the time `now`; the key's entry is the newest one. -/
structure Tracks (limiter : RateLimiter κ) (key : κ) (log : List (Window Int)) (now : Int) :
    Prop where
  spaced : Spaced limiter.windowMs limiter.max log
  entry : limiter.counts key =
    log.head?.map fun w => ⟨w.times.length, w.start + limiter.windowMs⟩
  past : ∀ w ∈ log, w.start ≤ now

/-- A call for the key adds its time to the log if it is allowed, in a new window if it
opens one. -/
theorem Tracks.allow {limiter : RateLimiter κ} {key : κ} {log : List (Window Int)}
    {before now : Int} (h : Tracks limiter key log before) (hnow : before ≤ now)
    (hwindow : 0 ≤ limiter.windowMs) (hmax : 1 ≤ limiter.max) :
    ∃ log', Tracks (limiter.allow now key).1 key log' now ∧
      allTimes log' =
        (if (limiter.allow now key).2 = true then [now] else []) ++ allTimes log ∧
      log'.map Window.start =
        (if limiter.opens now key = true then [now] else []) ++ log.map Window.start := by
  have hpast : ∀ w ∈ log, w.start ≤ now := fun w hw => Int.le_trans (h.past w hw) hnow
  have hcase := allow_cases limiter now key
  generalize limiter.allow now key = result at hcase ⊢
  generalize limiter.opens now key = opened at hcase ⊢
  cases hcase with
  | opened hover =>
      refine ⟨⟨now, [now]⟩ :: log, ⟨?_, ?_, ?_⟩, rfl, rfl⟩
      · refine h.spaced.opened hwindow hmax fun newest hnewest => ?_
        exact hover _ (by rw [h.entry, hnewest, Option.map_some])
      · simp
      · exact List.forall_mem_cons.mpr ⟨Int.le_refl now, hpast⟩
  | refused hentry hin hfull =>
      exact ⟨log, ⟨h.spaced, h.entry, hpast⟩, rfl, rfl⟩
  | counted hentry hin hroom =>
      have hlog := h.entry
      rw [hentry] at hlog
      cases log with
      | nil => cases hlog
      | cons w log =>
          obtain rfl := Option.some.inj hlog
          refine ⟨⟨w.start, now :: w.times⟩ :: log, ⟨?_, ?_, ?_⟩, rfl, rfl⟩
          · exact h.spaced.counted hroom ⟨hpast w List.mem_cons_self, hin⟩
          · simp
          · exact List.forall_mem_cons.mpr (List.forall_mem_cons.mp hpast)

/-- A call for another key leaves the log. -/
theorem Tracks.allow_other {limiter : RateLimiter κ} {key : κ} {log : List (Window Int)}
    {before now : Int} (h : Tracks limiter key log before) (hnow : before ≤ now) {other : κ}
    (hne : other ≠ key) : Tracks (limiter.allow now other).1 key log now := by
  obtain ⟨hwindow, hmax, hcounts⟩ := limiter.allow_frame now other
  refine ⟨?_, ?_, fun w hw => Int.le_trans (h.past w hw) hnow⟩
  · rw [hwindow, hmax]
    exact h.spaced
  · rw [hcounts key (Ne.symm hne), hwindow]
    exact h.entry

/-- **The log over a run**: it holds the times at which the key is allowed and the
windows that open. -/
theorem Tracks.run {limiter : RateLimiter κ} {key : κ} {log : List (Window Int)} {now : Int}
    (h : Tracks limiter key log now) (hwindow : 0 ≤ limiter.windowMs)
    (hmax : 1 ≤ limiter.max) {calls : List (RateCall κ)}
    (hsorted : calls.Pairwise fun earlier later => earlier.now ≤ later.now)
    (hnow : ∀ call ∈ calls, now ≤ call.now) :
    ∃ log', Spaced limiter.windowMs limiter.max log' ∧
      allTimes log' = (limiter.allowed key calls).reverse ++ allTimes log ∧
      log'.map Window.start = (limiter.openings key calls).reverse ++ log.map Window.start := by
  induction calls generalizing limiter log now with
  | nil => exact ⟨log, h.spaced, rfl, rfl⟩
  | cons call calls ih =>
      obtain ⟨hwidth, hbound, -⟩ := limiter.allow_frame call.now call.key
      obtain ⟨hlater, hrest⟩ := List.pairwise_cons.mp hsorted
      have hcall := hnow call List.mem_cons_self
      rw [RateLimiter.allowed, RateLimiter.openings]
      by_cases hkey : call.key = key
      · subst hkey
        -- the newest windows come first in the log, the calls in the order of time
        obtain ⟨log', htracks, htimes, hstarts⟩ := h.allow hcall hwindow hmax
        obtain ⟨log'', hspaced, htimes', hstarts'⟩ :=
          ih htracks (hwidth ▸ hwindow) (hbound ▸ hmax) hrest hlater
        rw [hwidth, hbound] at hspaced
        refine ⟨log'', hspaced, ?_, ?_⟩
        · rw [htimes', htimes, List.reverse_append, List.append_assoc]
          simp only [true_and]
          split <;> rfl
        · rw [hstarts', hstarts, List.reverse_append, List.append_assoc]
          simp only [true_and]
          split <;> rfl
      · obtain ⟨log'', hspaced, htimes', hstarts'⟩ :=
          ih (h.allow_other hcall hkey) (hwidth ▸ hwindow) (hbound ▸ hmax) hrest hlater
        rw [hwidth, hbound] at hspaced
        simp only [hkey, false_and, if_false, List.nil_append]
        exact ⟨log'', hspaced, htimes', hstarts'⟩

/-! ## The bounds -/

/-- The answers to calls one after the other. -/
theorem answers_append (limiter : RateLimiter κ) (pre post : List (RateCall κ)) :
    limiter.answers (pre ++ post) = limiter.answers pre ++ (limiter.after pre).answers post := by
  induction pre generalizing limiter with
  | nil => rfl
  | cons call pre ih =>
      rw [List.cons_append, answers, answers, after, ih]
      rfl

theorem length_answers (limiter : RateLimiter κ) (calls : List (RateCall κ)) :
    (limiter.answers calls).length = calls.length := by
  induction calls generalizing limiter with
  | nil => rfl
  | cons call calls ih => rw [answers, List.length_cons, ih, List.length_cons]

/-- A refused call can be left out: the later answers are the same. -/
theorem answers_drop_refused {limiter : RateLimiter κ} {pre post : List (RateCall κ)}
    {call : RateCall κ}
    (hrefused : (limiter.answers (pre ++ call :: post))[pre.length]? = some false) :
    (limiter.answers (pre ++ call :: post)).drop (pre.length + 1) =
      (limiter.answers (pre ++ post)).drop pre.length := by
  have hlength := length_answers limiter pre
  rw [answers_append, ← hlength, List.getElem?_append_right (Nat.le_refl _), Nat.sub_self,
    answers] at hrefused
  have hsame := allow_refused (Option.some.inj hrefused)
  rw [answers_append, answers_append, answers, hsame, ← hlength, List.drop_left,
    ← List.drop_drop, List.drop_left]
  rfl

/-- The times of a run as seen through its windows. -/
structure WindowsBounded (windowMs : Int) (max : Nat) (calls : List (RateCall κ)) : Prop where
  covered : 0 ≤ windowMs → ∀ key, ∀ t ∈ (new windowMs max).allowed key calls,
    ∃ start ∈ (new windowMs max).openings key calls, start ≤ t ∧ t ≤ start + windowMs
  window : ∀ key, ∀ start ∈ (new windowMs max).openings key calls,
    ((new windowMs max).allowed key calls).countP
      (fun t => decide (start ≤ t ∧ t ≤ start + windowMs)) ≤ max
  interval : ∀ key a b, b - a < windowMs →
    ((new windowMs max).allowed key calls).countP (fun t => decide (a ≤ t ∧ t ≤ b)) ≤ 2 * max
  independent : ∀ key, (new windowMs max).answersTo key calls =
    (new windowMs max).answers (calls.filter fun call => call.key = key)
  refused : ∀ pre call post, calls = pre ++ call :: post →
    ((new windowMs max).answers calls)[pre.length]? = some false →
      ((new windowMs max).answers calls).drop (pre.length + 1) =
        ((new windowMs max).answers (pre ++ post)).drop pre.length

/-- The log of a key after a run of a new limiter. -/
theorem exists_log {windowMs : Int} (hwindow : 0 ≤ windowMs) {max : Nat} (hmax : 1 ≤ max)
    {calls : List (RateCall κ)}
    (hsorted : calls.Pairwise fun earlier later => earlier.now ≤ later.now) (key : κ) :
    ∃ log, Spaced windowMs max log ∧
      allTimes log = ((new windowMs max).allowed key calls).reverse ∧
      log.map Window.start = ((new windowMs max).openings key calls).reverse := by
  -- a time before all calls
  obtain ⟨first, hfirst⟩ : ∃ first, ∀ call ∈ calls, first ≤ call.now := by
    cases calls with
    | nil => exact ⟨0, fun call hcall => by cases hcall⟩
    | cons call calls =>
        exact ⟨call.now, List.forall_mem_cons.mpr
          ⟨Int.le_refl _, (List.pairwise_cons.mp hsorted).1⟩⟩
  have hstart : Tracks (new windowMs max) key [] first :=
    ⟨Spaced.nil _ _, rfl, fun w hw => by cases hw⟩
  obtain ⟨log, hspaced, htimes, hstarts⟩ := hstart.run hwindow hmax hsorted hfirst
  have hempty : allTimes ([] : List (Window Int)) = [] := rfl
  rw [hempty, List.append_nil] at htimes
  rw [List.map_nil, List.append_nil] at hstarts
  exact ⟨log, hspaced, htimes, hstarts⟩

/-- **`RateLimiter` bounds every window**: over every run of calls at times that never go
back, a key is allowed at most `max` times in each of its windows, and at most twice as
often in an interval shorter than a window; its answers are those of a limiter called for
it alone; and a refused call can be left out. -/
theorem windowsBounded (windowMs : Int) {max : Nat} (hmax : 1 ≤ max)
    {calls : List (RateCall κ)}
    (hsorted : calls.Pairwise fun earlier later => earlier.now ≤ later.now) :
    WindowsBounded windowMs max calls where
  covered := by
    intro hwindow key t ht
    obtain ⟨log, hspaced, htimes, hstarts⟩ := exists_log hwindow hmax hsorted key
    rw [← List.mem_reverse, ← htimes] at ht
    obtain ⟨w, hw, hin⟩ := List.mem_flatMap.mp ht
    have hopened : w.start ∈ log.map Window.start := List.mem_map_of_mem hw
    rw [hstarts, List.mem_reverse] at hopened
    exact ⟨w.start, hopened, hspaced.inside w hw t hin⟩
  window := by
    intro key start hopened
    by_cases hwindow : 0 ≤ windowMs
    · obtain ⟨log, hspaced, htimes, hstarts⟩ := exists_log hwindow hmax hsorted key
      rw [← List.mem_reverse, ← hstarts] at hopened
      obtain ⟨w, hw, rfl⟩ := List.mem_map.mp hopened
      rw [← List.countP_reverse, ← htimes]
      exact hspaced.countP_window hw
    · -- a window of negative width holds no time
      have hnone : ∀ t : Int, ¬ (start ≤ t ∧ t ≤ start + windowMs) := fun t => by omega
      simp [hnone]
  interval := by
    intro key a b hab
    by_cases hwindow : 0 ≤ windowMs
    · obtain ⟨log, hspaced, htimes, -⟩ := exists_log hwindow hmax hsorted key
      rw [← List.countP_reverse, ← htimes]
      exact hspaced.countP_interval (by omega)
    · have hnone : ∀ t : Int, ¬ (a ≤ t ∧ t ≤ b) := fun t => by omega
      simp [hnone]
  independent := fun key => Agree.answersTo ⟨rfl, rfl, rfl⟩ calls
  refused := by
    rintro pre call post rfl hrefused
    exact answers_drop_refused hrefused

/-- Three calls of two keys with room for one. -/
theorem windowsBounded_sample :
    WindowsBounded 60000 1 [⟨0, "a"⟩, ⟨0, "b"⟩, ⟨5, "a"⟩, ⟨60001, "a"⟩] :=
  windowsBounded 60000 (by decide) (by decide)

end RateLimiter

end Server
end InfinityLabs
