import InfinityLabs.Lib.Runs
import InfinityLabs.Lib.ListParts

/-!
# Threads over a shared state

A crew is a list of threads and the state that they share.  A step is a step of
one of them, chosen by the label; a thread is where it stands in its code.

* What a thread may rely on is shown for its own steps and is kept by the steps
  of the others.
* What is shared and what the threads hold may add up to a sum that no step
  changes.
* A mutex is held by the threads that stand between their `lock` and their
  `unlock`, so by one of them at most.
* Where every step that is not excused takes from a rank, a run has as many of
  them as its rank at most.
-/

namespace InfinityLabs
namespace Lib

/-- Threads, each of which stands somewhere in its code, and what they share. -/
structure Crew (σ π : Type) where
  shared : σ
  threads : List π

namespace Crew

variable {σ π α : Type}

/-- The runs of a crew: the label `(i, a)` is the step `a` of the thread `i`. -/
def machine (start : Crew σ π → Prop) (act : Nat → α → σ → π → Option (σ × π)) :
    Machine (Crew σ π) (Nat × α) where
  start
  step c label :=
    match c.threads[label.1]? with
    | none => none
    | some p =>
        (act label.1 label.2 c.shared p).map fun (s, p') =>
          { shared := s, threads := c.threads.set label.1 p' }

variable {start : Crew σ π → Prop} {act : Nat → α → σ → π → Option (σ × π)}
  {c c' : Crew σ π} {i : Nat} {a : α}

/-- A step of a crew is a step of one thread, and the others stay where they are. -/
theorem step_eq_some_iff : (machine start act).step c (i, a) = some c' ↔
    ∃ p s p', c.threads[i]? = some p ∧ act i a c.shared p = some (s, p') ∧
      c' = { shared := s, threads := c.threads.set i p' } := by
  simp only [machine]
  cases hget : c.threads[i]? with
  | none => simp
  | some p =>
      constructor
      · intro hmap
        obtain ⟨⟨s, p'⟩, hact, rfl⟩ := Option.map_eq_some_iff.mp hmap
        exact ⟨p, s, p', rfl, hact, rfl⟩
      · rintro ⟨q, s, p', hq, hact, rfl⟩
        obtain rfl := Option.some.inj hq
        exact Option.map_eq_some_iff.mpr ⟨(s, p'), hact, rfl⟩

/-- No thread can take a step that meets the guard. -/
def Stuck (act : Nat → α → σ → π → Option (σ × π)) (guard : α → Prop) (c : Crew σ π) : Prop :=
  ∀ i a p, c.threads[i]? = some p → guard a → act i a c.shared p = none

/-- The crew is as large as before. -/
theorem length_of_step (hstep : (machine start act).step c (i, a) = some c') :
    c'.threads.length = c.threads.length := by
  obtain ⟨p, s, p', -, -, rfl⟩ := step_eq_some_iff.mp hstep
  exact List.length_set

/-! ## What each thread relies on -/

/-- The assertion `A` holds of every thread and of what is shared. -/
def Each (A : Nat → σ → π → Prop) (c : Crew σ π) : Prop :=
  ∀ i p, c.threads[i]? = some p → A i c.shared p

/-- An assertion that the thread establishes and the others do not disturb holds after the
step. -/
theorem Each.set {A : Nat → σ → π → Prop} {p' : π} {s' : σ} (h : c.Each A)
    (hown : A i s' p')
    (hothers : ∀ j q, j ≠ i → c.threads[j]? = some q → A j c.shared q → A j s' q) :
    Each A { shared := s', threads := c.threads.set i p' } := by
  intro j q hget
  by_cases hij : i = j
  · subst hij
    obtain ⟨hlt, hq⟩ := List.getElem?_eq_some_iff.mp hget
    obtain rfl : p' = q := by simpa using hq
    exact hown
  · have hq : c.threads[j]? = some q := by rwa [List.getElem?_set_ne hij] at hget
    exact hothers j q (Ne.symm hij) hq (h j q hq)

/-- A step that keeps the assertion of its thread and of the others keeps it. -/
theorem Each.step {A : Nat → σ → π → Prop} (h : c.Each A)
    (hown : ∀ p s' p', c.threads[i]? = some p → A i c.shared p →
      act i a c.shared p = some (s', p') → A i s' p')
    (hothers : ∀ p s' p' j q, j ≠ i → c.threads[i]? = some p → c.threads[j]? = some q →
      A i c.shared p → A j c.shared q → act i a c.shared p = some (s', p') → A j s' q)
    (hstep : (machine start act).step c (i, a) = some c') : c'.Each A := by
  obtain ⟨p, s', p', hget, hact, rfl⟩ := step_eq_some_iff.mp hstep
  have hp : A i c.shared p := h i p hget
  exact h.set (hown p s' p' hget hp hact)
    fun j q hne hq hA => hothers p s' p' j q hne hget hq hp hA hact

/-! ## What no step changes -/

/-- What the threads hold together. -/
def total (weight : π → Nat) (c : Crew σ π) : Nat := (c.threads.map weight).sum

/-- How a step of one thread changes what they hold together. -/
theorem total_set (weight : π → Nat) (p' : π) (s' : σ) {p : π} (hget : c.threads[i]? = some p) :
    total weight { shared := s', threads := c.threads.set i p' } + weight p =
      total weight c + weight p' :=
  sum_map_set_add hget p' weight

/-- What one thread holds is held. -/
theorem le_total (weight : π → Nat) {p : π} (hget : c.threads[i]? = some p) :
    weight p ≤ total weight c := by
  obtain ⟨l₁, l₂, hsplit, -⟩ := exists_append_cons_of_getElem? hget
  simp only [total, hsplit, List.map_append, List.map_cons, List.sum_append, List.sum_cons]
  omega

/-- Nothing is held where no thread holds anything. -/
theorem total_eq_zero {weight : π → Nat}
    (h : ∀ (i : Nat) p, c.threads[i]? = some p → weight p = 0) : total weight c = 0 := by
  refine List.sum_eq_zero_iff_forall_eq_nat.mpr fun held hmem => ?_
  obtain ⟨p, hp, rfl⟩ := List.mem_map.mp hmem
  obtain ⟨i, hget⟩ := List.getElem?_of_mem hp
  exact h i p hget

end Crew

/-! ## A mutex and its condition variable -/

/-- The thread that holds the mutex, and those that wait for the condition. -/
structure Monitor where
  owner : Option Nat
  waiting : List Nat
  deriving DecidableEq, Repr

namespace Monitor

/-- A mutex that no thread holds, and no thread waits. -/
def free : Monitor := { owner := none, waiting := [] }

variable (m : Monitor)

/-- To lock the mutex, where it is free. -/
def lock (i : Nat) : Option Monitor :=
  if m.owner = none then some { m with owner := some i } else none

/-- To unlock the mutex. -/
def unlock : Monitor := { m with owner := none }

/-- To begin to wait, which unlocks the mutex. -/
def wait (i : Nat) : Monitor := { owner := none, waiting := i :: m.waiting }

/-- To return from the wait, once woken and with the mutex locked again. -/
def resume (i : Nat) : Option Monitor := if i ∈ m.waiting then none else m.lock i

/-- To wake one of those that wait, if any does. -/
def signal (woken : Nat) : Option Monitor :=
  if m.waiting = [] then some m
  else if woken ∈ m.waiting then some { m with waiting := m.waiting.erase woken }
  else none

/-- To wake all that wait. -/
def broadcast : Monitor := { m with waiting := [] }

/-- A wait that ends although nobody woke the thread. -/
def spurious (i : Nat) : Option Monitor :=
  if i ∈ m.waiting then some { m with waiting := m.waiting.erase i } else none

variable {m} {m' : Monitor} {i j : Nat}

theorem lock_eq_some_iff :
    m.lock i = some m' ↔ m.owner = none ∧ m' = { m with owner := some i } := by
  unfold lock
  split
  · simp [*, eq_comm]
  · simp [*]

theorem resume_eq_some_iff : m.resume i = some m' ↔
    i ∉ m.waiting ∧ m.owner = none ∧ m' = { m with owner := some i } := by
  unfold resume
  split
  · simp [*]
  · simp [*, lock_eq_some_iff]

theorem spurious_eq_some_iff : m.spurious i = some m' ↔
    i ∈ m.waiting ∧ m' = { m with waiting := m.waiting.erase i } := by
  unfold spurious
  split
  · simp [*, eq_comm]
  · simp [*]

theorem signal_eq_some_iff : m.signal i = some m' ↔
    m.waiting = [] ∧ m' = m ∨
      i ∈ m.waiting ∧ m' = { m with waiting := m.waiting.erase i } := by
  unfold signal
  split
  case isTrue h => simp [h, eq_comm]
  case isFalse h =>
    split
    · simp [*, eq_comm]
    · simp [*]

/-- A signal is always possible, and wakes a thread if one waits. -/
theorem exists_signal (m : Monitor) : ∃ i m', m.signal i = some m' := by
  cases hwaiting : m.waiting with
  | nil => exact ⟨0, m, signal_eq_some_iff.mpr (Or.inl ⟨hwaiting, rfl⟩)⟩
  | cons i rest =>
      exact ⟨i, _, signal_eq_some_iff.mpr (Or.inr ⟨by simp [hwaiting], rfl⟩)⟩

end Monitor

namespace Crew

variable {σ π α : Type} {start : Crew σ π → Prop}
  {act : Nat → α → σ → π → Option (σ × π)} {c c' : Crew σ π} {i : Nat} {a : α}

/-! ## Mutual exclusion -/

/-- The threads that stand in a section under the mutex are those that hold it, and it is
held by a thread. -/
structure Exclusive (owner : σ → Option Nat) (holds : π → Bool) (c : Crew σ π) : Prop where
  iff : c.Each fun i s p => holds p = true ↔ owner s = some i
  lt_length : ∀ i, owner c.shared = some i → i < c.threads.length

/-- Each step keeps the mutex with the threads that stand in a section under it: it locks a
free mutex on the way in, unlocks it on the way out and leaves it alone otherwise. -/
def Disciplined (owner : σ → Option Nat) (holds : π → Bool)
    (act : Nat → α → σ → π → Option (σ × π)) : Prop :=
  ∀ i a s p s' p', act i a s p = some (s', p') →
    holds p = holds p' ∧ owner s' = owner s ∨
    holds p = false ∧ holds p' = true ∧ owner s = none ∧ owner s' = some i ∨
    holds p = true ∧ holds p' = false ∧ owner s' = none

/-- Under the discipline a step keeps the mutex with the threads in its sections. -/
theorem Exclusive.step {owner : σ → Option Nat} {holds : π → Bool}
    (hdisciplined : Disciplined owner holds act) (h : c.Exclusive owner holds)
    (hstep : (machine start act).step c (i, a) = some c') : c'.Exclusive owner holds := by
  constructor
  · refine Each.step h.iff ?_ ?_ hstep
    · intro p s' p' _ hp hact
      rcases hdisciplined i a _ p s' p' hact with ⟨hholds, hown⟩ | ⟨-, hin, -, hown⟩ |
        ⟨-, hout, hown⟩
      · rw [← hholds, hown]
        exact hp
      · simp [hin, hown]
      · simp [hout, hown]
    · intro p s' p' j q hne _ _ hp hq hact
      rcases hdisciplined i a _ p s' p' hact with ⟨-, hown⟩ | ⟨-, -, hfree, hown⟩ |
        ⟨hholds, -, hown⟩
      · rw [hown]
        exact hq
      · have hj : holds q = false := by
          rw [← Bool.not_eq_true, hq, hfree]
          exact Option.some_ne_none j ∘ Eq.symm
        simp [hj, hown, Ne.symm hne]
      · have hi : owner c.shared = some i := hp.mp hholds
        have hj : holds q = false := by
          rw [← Bool.not_eq_true, hq, hi]
          exact fun heq => hne (Option.some.inj heq).symm
        simp [hj, hown]
  · intro j hj
    obtain ⟨p, s', p', hget, hact, rfl⟩ := step_eq_some_iff.mp hstep
    simp only [List.length_set]
    rcases hdisciplined i a _ p s' p' hact with ⟨-, hown⟩ | ⟨-, -, -, hown⟩ | ⟨-, -, hown⟩
    · exact h.lt_length j (hown ▸ hj)
    · obtain rfl := Option.some.inj (hown.symm.trans hj)
      exact (List.getElem?_eq_some_iff.mp hget).1
    · cases hown.symm.trans hj

/-- A mutex that is held is held by a thread in a section under it. -/
theorem Exclusive.exists_holder {owner : σ → Option Nat} {holds : π → Bool}
    (h : c.Exclusive owner holds) (hi : owner c.shared = some i) :
    ∃ p, c.threads[i]? = some p ∧ holds p = true := by
  have hget := List.getElem?_eq_getElem (h.lt_length i hi)
  exact ⟨_, hget, (h.iff i _ hget).mpr hi⟩

/-- Where the mutex is free no thread stands in a section under it. -/
theorem Exclusive.holds_eq_false {owner : σ → Option Nat} {holds : π → Bool}
    (h : c.Exclusive owner holds) (hfree : owner c.shared = none) {p : π}
    (hget : c.threads[i]? = some p) : holds p = false := by
  rw [← Bool.not_eq_true]
  intro hholds
  exact Option.some_ne_none i (((h.iff i p hget).mp hholds).symm.trans hfree)

/-- Two threads in sections under the mutex are the same thread. -/
theorem Exclusive.eq {owner : σ → Option Nat} {holds : π → Bool}
    (h : c.Exclusive owner holds) {j : Nat} {p q : π} (hi : c.threads[i]? = some p)
    (hj : c.threads[j]? = some q) (hp : holds p = true) (hq : holds q = true) : i = j :=
  Option.some.inj (((h.iff i p hi).mp hp).symm.trans ((h.iff j q hj).mp hq))

/-! ## Waiting threads -/

/-- The threads that wait for the condition stand in the wait, and each waits once. -/
structure Sleeping (monitor : σ → Monitor) (waits : π → Bool) (c : Crew σ π) : Prop where
  nodup : (monitor c.shared).waiting.Nodup
  waits : ∀ j ∈ (monitor c.shared).waiting, ∃ p, c.threads[j]? = some p ∧ waits p = true

/-- A step lets nobody begin to wait but its own thread, which then stands in the wait, and does
not leave the wait before it was woken. -/
def Watchful (monitor : σ → Monitor) (waits : π → Bool)
    (act : Nat → α → σ → π → Option (σ × π)) : Prop :=
  ∀ i a s p s' p', act i a s p = some (s', p') → (monitor s).waiting.Nodup →
    (i ∈ (monitor s).waiting → waits p = true) →
    (monitor s').waiting.Nodup ∧ (i ∈ (monitor s').waiting → waits p' = true) ∧
      ∀ j ∈ (monitor s').waiting, j ≠ i → j ∈ (monitor s).waiting

/-- The threads that wait go on to stand in the wait. -/
theorem Sleeping.step {monitor : σ → Monitor} {waits : π → Bool}
    (hwatchful : Watchful monitor waits act) (h : c.Sleeping monitor waits)
    (hstep : (machine start act).step c (i, a) = some c') : c'.Sleeping monitor waits := by
  obtain ⟨p, s', p', hget, hact, rfl⟩ := step_eq_some_iff.mp hstep
  have hown : i ∈ (monitor c.shared).waiting → waits p = true := by
    intro hi
    obtain ⟨q, hq, hwaits⟩ := h.waits i hi
    obtain rfl := Option.some.inj (hget.symm.trans hq)
    exact hwaits
  obtain ⟨hnodup, hself, hothers⟩ := hwatchful i a _ p s' p' hact h.nodup hown
  refine ⟨hnodup, fun j hj => ?_⟩
  by_cases hij : i = j
  · subst hij
    have hlt : i < c.threads.length := (List.getElem?_eq_some_iff.mp hget).1
    exact ⟨p', List.getElem?_set_self hlt, hself hj⟩
  · obtain ⟨q, hq, hwaits⟩ := h.waits j (hothers j hj (Ne.symm hij))
    exact ⟨q, (List.getElem?_set_ne hij).trans hq, hwaits⟩

/-- A thread that does not stand in the wait does not wait. -/
theorem Sleeping.not_mem {monitor : σ → Monitor} {waits : π → Bool}
    (h : c.Sleeping monitor waits) {p : π} (hget : c.threads[i]? = some p)
    (hp : waits p = false) : i ∉ (monitor c.shared).waiting := by
  intro hi
  obtain ⟨q, hq, hwaits⟩ := h.waits i hi
  obtain rfl := Option.some.inj (hget.symm.trans hq)
  rw [hp] at hwaits
  cases hwaits

/-- There are no more that wait than stand in the wait. -/
theorem Sleeping.length_le {monitor : σ → Monitor} {waits : π → Bool}
    (h : c.Sleeping monitor waits) :
    (monitor c.shared).waiting.length ≤ c.threads.countP waits := by
  have hsubset : (monitor c.shared).waiting ⊆
      (c.threads.zipIdx.filter fun q => waits q.1).map Prod.snd := by
    intro j hj
    obtain ⟨p, hget, hwaits⟩ := h.waits j hj
    refine List.mem_map.mpr ⟨(p, j), List.mem_filter.mpr ⟨?_, hwaits⟩, rfl⟩
    exact List.mem_zipIdx_iff_getElem?.mpr hget
  have hle := (List.subperm_of_subset h.nodup hsubset).length_le
  have hcount : c.threads.countP waits = (c.threads.zipIdx.map Prod.fst).countP waits := by
    rw [List.zipIdx_map_fst]
  rw [List.length_map, ← List.countP_eq_length_filter] at hle
  rw [hcount, List.countP_map]
  exact hle

/-! ## Runs of bounded length -/

/-- Where the excused steps add `cost` to a rank at most and the others take from it, a run is
no longer than its rank, but for what is excused. -/
theorem length_le_of_rank {M : Machine σ α} {I : σ → Prop} (rank : σ → Nat)
    (excused : α → Bool) (cost : Nat)
    (hinvariant : ∀ s a s', I s → M.step s a = some s' → I s')
    (hrank : ∀ s a s', I s → M.step s a = some s' →
      rank s' + 1 ≤ rank s + if excused a then cost else 0)
    {labels : List α} {s s' : σ} (h : I s) (hrun : M.run s labels = some s') :
    labels.length + rank s' ≤ rank s + cost * labels.countP excused := by
  induction labels generalizing s with
  | nil =>
      obtain rfl := Option.some.inj hrun
      simp
  | cons a rest ih =>
      obtain ⟨t, ht, hrest⟩ := Machine.exists_step_of_run_cons hrun
      have hfirst := hrank s a t h ht
      have hlast := ih (hinvariant s a t h ht) hrest
      rw [List.length_cons, List.countP_cons, Nat.mul_add]
      split at hfirst
      case isTrue hexcused =>
        rw [if_pos hexcused]
        omega
      case isFalse hexcused =>
        rw [if_neg hexcused]
        omega

end Crew

end Lib
end InfinityLabs
