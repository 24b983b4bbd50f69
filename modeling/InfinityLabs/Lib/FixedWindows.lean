import Mathlib.Algebra.Order.Group.Defs
import Mathlib.Tactic.Common

/-!
# Fixed windows

A counter that starts again when its window is over keeps a log of windows, the newest
first.  A window has a start and the times that were counted in it; a new one starts
only after the one before is over.  Each window then bounds the times between its start
and its end, and an interval that is shorter than a window meets two of them at most.
-/

namespace InfinityLabs
namespace Lib

universe u

/-- A window and the times counted in it. -/
structure Window (T : Type u) where
  start : T
  times : List T

/-- All times of a log. -/
def allTimes {T : Type u} (log : List (Window T)) : List T :=
  log.flatMap Window.times

variable {T : Type u} [AddCommGroup T] [LinearOrder T]

/-- The windows of a log, the newest first, with at most `max` times each. -/
structure Spaced (width : T) (max : Nat) (log : List (Window T)) : Prop where
  inside : ∀ w ∈ log, ∀ t ∈ w.times, w.start ≤ t ∧ t ≤ w.start + width
  bounded : ∀ w ∈ log, w.times.length ≤ max
  apart : log.Pairwise fun newer older => older.start + width < newer.start

namespace Spaced

variable {width : T} {max : Nat} {w : Window T} {log : List (Window T)}

/-- No window. -/
theorem nil (width : T) (max : Nat) : Spaced width max [] where
  inside := fun w hw => by cases hw
  bounded := fun w hw => by cases hw
  apart := List.Pairwise.nil

/-- A window that starts when all others are over. -/
theorem cons (h : Spaced width max log)
    (hinside : ∀ t ∈ w.times, w.start ≤ t ∧ t ≤ w.start + width)
    (hbounded : w.times.length ≤ max)
    (hapart : ∀ older ∈ log, older.start + width < w.start) : Spaced width max (w :: log) where
  inside := List.forall_mem_cons.mpr ⟨hinside, h.inside⟩
  bounded := List.forall_mem_cons.mpr ⟨hbounded, h.bounded⟩
  apart := List.pairwise_cons.mpr ⟨hapart, h.apart⟩

/-- The log without its newest window. -/
theorem tail (h : Spaced width max (w :: log)) : Spaced width max log where
  inside := fun v hv => h.inside v (List.mem_cons_of_mem w hv)
  bounded := fun v hv => h.bounded v (List.mem_cons_of_mem w hv)
  apart := h.apart.of_cons

/-- The other windows are over when the newest one starts. -/
theorem ended (h : Spaced width max (w :: log)) {older : Window T} (hmem : older ∈ log) :
    older.start + width < w.start :=
  List.rel_of_pairwise_cons h.apart hmem

/-- A time counted in the newest window. -/
theorem counted (h : Spaced width max (w :: log)) (hroom : w.times.length < max) {t : T}
    (hin : w.start ≤ t ∧ t ≤ w.start + width) :
    Spaced width max (⟨w.start, t :: w.times⟩ :: log) := by
  refine h.tail.cons ?_ hroom fun older hmem => h.ended hmem
  exact List.forall_mem_cons.mpr ⟨hin, h.inside w List.mem_cons_self⟩

/-- The times of the other windows are earlier. -/
theorem lt_start (h : Spaced width max (w :: log)) {t : T} (ht : t ∈ allTimes log) :
    t < w.start := by
  obtain ⟨older, hmem, htimes⟩ := List.mem_flatMap.mp ht
  have hend := (h.tail.inside older hmem t htimes).2
  exact lt_of_le_of_lt hend (h.ended hmem)

/-- A window bounds the times between its start and its end. -/
theorem countP_window (h : Spaced width max log) (hw : w ∈ log) :
    (allTimes log).countP (fun t => decide (w.start ≤ t ∧ t ≤ w.start + width)) ≤ max := by
  induction log with
  | nil => cases hw
  | cons v log ih =>
      rw [allTimes, List.flatMap_cons, List.countP_append]
      rcases List.mem_cons.mp hw with rfl | hmem
      · have hnone : (allTimes log).countP
            (fun t => decide (w.start ≤ t ∧ t ≤ w.start + width)) = 0 := by
          rw [List.countP_eq_zero]
          intro t ht
          simp [not_le_of_gt (h.lt_start ht)]
        have hcount := Nat.le_trans
          (List.countP_le_length (p := fun t => decide (w.start ≤ t ∧ t ≤ w.start + width)))
          (h.bounded w List.mem_cons_self)
        rw [allTimes] at hnone
        omega
      · have hnone : v.times.countP
            (fun t => decide (w.start ≤ t ∧ t ≤ w.start + width)) = 0 := by
          rw [List.countP_eq_zero]
          intro t ht
          -- the newest window starts after this one is over
          have hlate := lt_of_lt_of_le (h.ended hmem) (h.inside v List.mem_cons_self t ht).1
          simp [not_le_of_gt hlate]
        have hrest := ih h.tail hmem
        rw [allTimes] at hrest
        omega

variable [IsOrderedAddMonoid T]

/-- A time that opens a window of its own, the newest one being over. -/
theorem opened (h : Spaced width max log) (hwidth : 0 ≤ width) (hmax : 1 ≤ max) {t : T}
    (hover : ∀ newest, log.head? = some newest → newest.start + width < t) :
    Spaced width max (⟨t, [t]⟩ :: log) := by
  refine h.cons ?_ hmax fun older holder => ?_
  · intro x hx
    obtain rfl := List.mem_singleton.mp hx
    exact ⟨le_refl x, le_add_of_nonneg_right hwidth⟩
  · cases log with
    | nil => cases holder
    | cons newest log =>
        have hend := hover newest rfl
        rcases List.mem_cons.mp holder with rfl | hmem
        · exact hend
        · -- an older window was over when the newest one started
          have hstart : newest.start < t :=
            lt_of_le_of_lt (le_add_of_nonneg_right hwidth) hend
          exact lt_trans (h.ended hmem) hstart

/-- **Two windows**: an interval that is shorter than a window meets two of them at
most. -/
theorem countP_interval (h : Spaced width max log) {a b : T} (hab : b < a + width) :
    (allTimes log).countP (fun t => decide (a ≤ t ∧ t ≤ b)) ≤ 2 * max := by
  have hcount : ∀ w : Window T, w.times.length ≤ max →
      w.times.countP (fun t => decide (a ≤ t ∧ t ≤ b)) ≤ max :=
    fun w hw => Nat.le_trans List.countP_le_length hw
  induction log with
  | nil => exact Nat.zero_le _
  | cons v log ih =>
      have hv := hcount v (h.bounded v List.mem_cons_self)
      have hrest := ih h.tail
      rw [allTimes] at hrest
      rw [allTimes, List.flatMap_cons, List.countP_append]
      by_cases hhit : ∃ x ∈ v.times, a ≤ x ∧ x ≤ b
      · -- the interval reaches the newest window, so it starts after the last but one
        obtain ⟨x, hx, -, hxb⟩ := hhit
        cases log with
        | nil =>
            rw [List.flatMap_nil, List.countP_nil]
            omega
        | cons u log =>
            have hu := hcount u (h.tail.bounded u List.mem_cons_self)
            have hstart : u.start < a := by
              have hover := h.ended (List.mem_cons_self : u ∈ u :: log)
              have hvx := (h.inside v List.mem_cons_self x hx).1
              exact lt_of_add_lt_add_right
                (lt_trans (lt_of_lt_of_le hover (le_trans hvx hxb)) hab)
            -- two windows are left; the others are over before the interval
            have hnone : (log.flatMap Window.times).countP
                (fun t => decide (a ≤ t ∧ t ≤ b)) = 0 := by
              rw [List.countP_eq_zero]
              intro t ht
              simp [not_le_of_gt (lt_trans (h.tail.lt_start ht) hstart)]
            rw [List.flatMap_cons, List.countP_append, hnone]
            omega
      · have hnone : v.times.countP (fun t => decide (a ≤ t ∧ t ≤ b)) = 0 := by
          rw [List.countP_eq_zero]
          intro t ht hin
          exact hhit ⟨t, ht, of_decide_eq_true hin⟩
        omega

end Spaced

end Lib
end InfinityLabs
