import Mathlib.Tactic.Common

/-!
# Guarded runs of a labelled machine

A machine takes one step for one label.  Every choice that is not the
machine's own (which request comes next, which transaction aborts, what a
model replies) is part of the label, so a step is a partial function and a run
on a concrete list of labels can be evaluated.

Two kinds of run are used below:

* `Reached`: the states of arbitrary runs;
* `ReachedBy guard`: the states of those runs in which every step meets
  `guard`, a condition on the state before the step and on its label.

An invariant is proved once for the start states and once for a step; a
simulation carries it from an abstract machine to the machine that refines it.
-/

namespace InfinityLabs
namespace Lib

universe u v w z

/-- A machine with states `σ` and labels `α`.  `step s a = none` says that the
label `a` is not enabled in `s`. -/
structure Machine (σ : Type u) (α : Type v) where
  start : σ → Prop
  step : σ → α → Option σ

namespace Machine

variable {σ : Type u} {α : Type v} {τ : Type w} {β : Type z}

/-- The states of the runs all of whose steps meet `guard`. -/
inductive ReachedBy (M : Machine σ α) (guard : σ → α → Prop) : σ → Prop
  | start {s : σ} (hstart : M.start s) : ReachedBy M guard s
  | step {s s' : σ} {a : α} (hreached : ReachedBy M guard s)
      (hguard : guard s a) (hstep : M.step s a = some s') : ReachedBy M guard s'

/-- The states of arbitrary runs. -/
def Reached (M : Machine σ α) : σ → Prop :=
  M.ReachedBy fun _ _ => True

/-- A predicate that holds at the start and survives every guarded step holds
in every state of a guarded run. -/
theorem ReachedBy.invariant {M : Machine σ α} {guard : σ → α → Prop}
    {I : σ → Prop} (hstart : ∀ s, M.start s → I s)
    (hstep : ∀ s a s', I s → guard s a → M.step s a = some s' → I s')
    {s : σ} (h : M.ReachedBy guard s) : I s := by
  induction h with
  | start h => exact hstart _ h
  | step _ hguard hs ih => exact hstep _ _ _ ih hguard hs

/-- The runs of a stronger guard are runs of a weaker one. -/
theorem ReachedBy.mono {M : Machine σ α} {guard guard' : σ → α → Prop}
    (himp : ∀ s a, guard s a → guard' s a) {s : σ} (h : M.ReachedBy guard s) :
    M.ReachedBy guard' s := by
  induction h with
  | start h => exact .start h
  | step _ hguard hs ih => exact .step ih (himp _ _ hguard) hs

/-- A forward simulation: every step of `M` is matched by no step or by one
step of `N`.  Related states then exist along every guarded run. -/
theorem ReachedBy.simulated {M : Machine σ α} {N : Machine τ β}
    {guard : σ → α → Prop} {R : σ → τ → Prop}
    (hstart : ∀ s, M.start s → ∃ t, N.start t ∧ R s t)
    (hstep : ∀ s t a s', R s t → guard s a → M.step s a = some s' →
      R s' t ∨ ∃ b t', N.step t b = some t' ∧ R s' t')
    {s : σ} (h : M.ReachedBy guard s) : ∃ t, N.Reached t ∧ R s t := by
  induction h with
  | start h =>
      obtain ⟨t, ht, hR⟩ := hstart _ h
      exact ⟨t, .start ht, hR⟩
  | step _ hguard hs ih =>
      obtain ⟨t, ht, hR⟩ := ih
      rcases hstep _ _ _ _ hR hguard hs with hR' | ⟨b, t', hb, hR'⟩
      · exact ⟨t, ht, hR'⟩
      · exact ⟨t', .step ht trivial hb, hR'⟩

/-- Run the machine on a list of labels. -/
def run (M : Machine σ α) : σ → List α → Option σ
  | s, [] => some s
  | s, a :: rest =>
      match M.step s a with
      | none => none
      | some s' => M.run s' rest

/-- Every label of the list is enabled in its turn and meets the guard. -/
def Admits (M : Machine σ α) (guard : σ → α → Prop) : σ → List α → Prop
  | _, [] => True
  | s, a :: rest =>
      guard s a ∧ match M.step s a with
        | none => False
        | some s' => M.Admits guard s' rest

/-- Admission is decided by following the list. -/
instance decidableAdmits (M : Machine σ α) (guard : σ → α → Prop)
    [∀ s a, Decidable (guard s a)] :
    (s : σ) → (labels : List α) → Decidable (M.Admits guard s labels)
  | _, [] => instDecidableTrue
  | s, a :: rest =>
      @instDecidableAnd _ _ _ (match M.step s a with
        | none => instDecidableFalse
        | some s' => decidableAdmits M guard s' rest)

/-- A run that is not empty begins with a step. -/
theorem exists_step_of_run_cons {M : Machine σ α} {s s' : σ} {a : α} {rest : List α}
    (hrun : M.run s (a :: rest) = some s') :
    ∃ t, M.step s a = some t ∧ M.run t rest = some s' := by
  rw [Machine.run] at hrun
  cases hstep : M.step s a with
  | none =>
      rw [hstep] at hrun
      cases hrun
  | some t =>
      rw [hstep] at hrun
      exact ⟨t, rfl, hrun⟩

/-- What every admitted step of the list preserves, the whole list preserves. -/
theorem run_invariant {M : Machine σ α} {guard : σ → α → Prop} {I : σ → Prop}
    {labels : List α}
    (hstep : ∀ s a s', a ∈ labels → guard s a → I s → M.step s a = some s' → I s')
    {s s' : σ} (h : I s) (hadmits : M.Admits guard s labels)
    (hrun : M.run s labels = some s') : I s' := by
  induction labels generalizing s with
  | nil =>
      obtain rfl := Option.some.inj hrun
      exact h
  | cons a rest ih =>
      obtain ⟨t, ht, hrest⟩ := exists_step_of_run_cons hrun
      simp only [Admits, ht] at hadmits
      have hnext : I t := hstep s a t List.mem_cons_self hadmits.1 h ht
      exact ih (fun s a s' hmem => hstep s a s' (List.mem_cons_of_mem _ hmem)) hnext
        hadmits.2 hrest

/-- An executed list of labels is admitted where nothing is asked of a step. -/
theorem admits_of_run {M : Machine σ α} {s s' : σ} {labels : List α}
    (hrun : M.run s labels = some s') : M.Admits (fun _ _ => True) s labels := by
  induction labels generalizing s with
  | nil => trivial
  | cons a rest ih =>
      obtain ⟨t, ht, hrest⟩ := exists_step_of_run_cons hrun
      simp only [Admits, ht, true_and]
      exact ih hrest

/-- A list of admitted labels leads from a reached state to a reached state. -/
theorem ReachedBy.run {M : Machine σ α} {guard : σ → α → Prop} {s s' : σ}
    {labels : List α} (h : M.ReachedBy guard s)
    (hadmits : M.Admits guard s labels) (hrun : M.run s labels = some s') :
    M.ReachedBy guard s' :=
  run_invariant (fun _ _ _ _ hguard hs hstep => .step hs hguard hstep) h hadmits hrun

/-- Without a guard, an executed list of labels is a run. -/
theorem Reached.run {M : Machine σ α} {s s' : σ} {labels : List α}
    (h : M.Reached s) (hrun : M.run s labels = some s') : M.Reached s' :=
  ReachedBy.run h (admits_of_run hrun) hrun

/-- Where every step takes one from a rank, and some labels bring `cost` to it, the length of
a run and the rank at its end are the rank at its start and what the labels bring. -/
theorem run_rank {M : Machine σ α} {rank : σ → Nat} {brings : α → Bool} {cost : Nat}
    {labels : List α}
    (hstep : ∀ s a s', a ∈ labels → M.step s a = some s' →
      rank s' + 1 = rank s + if brings a then cost else 0)
    {s s' : σ} (hrun : M.run s labels = some s') :
    labels.length + rank s' = rank s + cost * labels.countP brings := by
  induction labels generalizing s with
  | nil =>
      obtain rfl := Option.some.inj hrun
      rw [List.length_nil, List.countP_nil, Nat.zero_add, Nat.mul_zero, Nat.add_zero]
  | cons a rest ih =>
      obtain ⟨t, ht, hrest⟩ := exists_step_of_run_cons hrun
      have hfirst := hstep s a t List.mem_cons_self ht
      have hlast := ih (fun s a s' hmem => hstep s a s' (List.mem_cons_of_mem _ hmem)) hrest
      rw [List.length_cons, List.countP_cons, Nat.mul_add]
      split at hfirst
      case isTrue hbrings =>
        rw [if_pos hbrings, Nat.mul_one]
        omega
      case isFalse hbrings =>
        rw [if_neg hbrings, Nat.mul_zero]
        omega

/-- Where every step takes one from a rank, but for what it adds to an income that counts `cost`
times, the length of a run is bounded by its rank and its income. -/
theorem run_income {M : Machine σ α} {I : σ → Prop} {rank income : σ → Nat} {cost : Nat}
    (hinvariant : ∀ s a s', I s → M.step s a = some s' → I s')
    (hstep : ∀ s a s', I s → M.step s a = some s' →
      rank s' + 1 + cost * income s ≤ rank s + cost * income s')
    {labels : List α} {s s' : σ} (h : I s) (hrun : M.run s labels = some s') :
    labels.length + rank s' + cost * income s ≤ rank s + cost * income s' := by
  induction labels generalizing s with
  | nil =>
      obtain rfl := Option.some.inj hrun
      exact Nat.le_of_eq (by rw [List.length_nil, Nat.zero_add])
  | cons a rest ih =>
      obtain ⟨t, ht, hrest⟩ := exists_step_of_run_cons hrun
      have hfirst := hstep s a t h ht
      have hlast := ih (hinvariant s a t h ht) hrest
      rw [List.length_cons]
      omega

/-- Where a machine, seen through a function, takes the steps of another, it does so in a run. -/
theorem run_map_eq {M : Machine σ α} {N : Machine τ α} {I : σ → Prop} {f : σ → τ}
    (hstep : ∀ s a, I s → (M.step s a).map f = N.step (f s) a)
    (hinvariant : ∀ s a s', I s → M.step s a = some s' → I s') {s : σ} (h : I s)
    (labels : List α) : (M.run s labels).map f = N.run (f s) labels := by
  induction labels generalizing s with
  | nil => rfl
  | cons a rest ih =>
      have hfirst := hstep s a h
      rw [Machine.run, Machine.run, ← hfirst]
      cases hs : M.step s a with
      | none => rfl
      | some t => exact ih (hinvariant s a t h hs)

/-- What an executed list of admitted labels shows of its last state, it shows of a
reached state. -/
theorem ReachedBy.run_map {M : Machine σ α} {guard : σ → α → Prop} {s : σ}
    {labels : List α} {f : σ → τ} {t : τ} (h : M.ReachedBy guard s)
    (hadmits : M.Admits guard s labels) (hrun : (M.run s labels).map f = some t) :
    ∃ s', M.ReachedBy guard s' ∧ f s' = t := by
  obtain ⟨s', hs', ht⟩ := Option.map_eq_some_iff.mp hrun
  exact ⟨s', h.run hadmits hs', ht⟩

/-- Without a guard every executed list of labels shows a reached state. -/
theorem Reached.run_map {M : Machine σ α} {s : σ} {labels : List α} {f : σ → τ} {t : τ}
    (h : M.Reached s) (hrun : (M.run s labels).map f = some t) :
    ∃ s', M.Reached s' ∧ f s' = t := by
  obtain ⟨s', hs', ht⟩ := Option.map_eq_some_iff.mp hrun
  exact ⟨s', h.run hs', ht⟩

/-! ### History variables -/

/-- The machine beside a history variable, which follows the steps and has no say in
them. -/
def recording (M : Machine σ α) (first : σ → τ) (follow : σ → α → τ → τ) :
    Machine (σ × τ) α where
  start s := M.start s.1 ∧ s.2 = first s.1
  step s a := (M.step s.1 a).map fun s' => (s', follow s.1 a s.2)

/-- A step with the history variable is a step without it. -/
theorem recording_step_eq {M : Machine σ α} {first : σ → τ} {follow : σ → α → τ → τ}
    {s s' : σ × τ} {a : α} (hstep : (M.recording first follow).step s a = some s') :
    M.step s.1 a = some s'.1 ∧ s'.2 = follow s.1 a s.2 := by
  obtain ⟨t, ht, rfl⟩ := Option.map_eq_some_iff.mp hstep
  exact ⟨ht, rfl⟩

/-- Without its history variable a reached state is reached. -/
theorem Reached.of_recording {M : Machine σ α} {first : σ → τ} {follow : σ → α → τ → τ}
    {s : σ × τ} (h : (M.recording first follow).Reached s) : M.Reached s.1 := by
  induction h with
  | start h => exact .start h.1
  | step _ _ hs ih => exact .step ih trivial (recording_step_eq hs).1

/-- The history variable neither adds runs nor takes any away. -/
theorem reached_recording_iff {M : Machine σ α} {first : σ → τ} {follow : σ → α → τ → τ}
    {s : σ} : M.Reached s ↔ ∃ history, (M.recording first follow).Reached (s, history) := by
  constructor
  · intro h
    induction h with
    | @start s h => exact ⟨first s, .start ⟨h, rfl⟩⟩
    | @step s s' a _ _ hs ih =>
        obtain ⟨history, ih⟩ := ih
        refine ⟨follow s a history, .step (a := a) ih trivial ?_⟩
        exact Option.map_eq_some_iff.mpr ⟨s', hs, rfl⟩
  · rintro ⟨history, h⟩
    exact h.of_recording

end Machine

/-! ## Histories -/

/-- Each entry of a history, the newest first, stands to the entries before it as `P` says. -/
def EachEntry {α : Type u} (P : α → List α → Prop) (history : List α) : Prop :=
  ∀ later entry earlier, history = later ++ entry :: earlier → P entry earlier

/-- Nothing is asked of the empty history. -/
theorem eachEntry_nil {α : Type u} {P : α → List α → Prop} : EachEntry P [] := by
  intro later entry earlier hsplit
  simp at hsplit

/-- One more entry. -/
theorem eachEntry_cons {α : Type u} {P : α → List α → Prop} {entry : α} {history : List α} :
    EachEntry P (entry :: history) ↔ P entry history ∧ EachEntry P history := by
  constructor
  · intro h
    refine ⟨h [] entry history rfl, fun later other earlier hsplit => ?_⟩
    exact h (entry :: later) other earlier (by rw [hsplit, List.cons_append])
  · rintro ⟨hentry, h⟩ later other earlier hsplit
    cases later with
    | nil =>
        obtain ⟨rfl, rfl⟩ := List.cons.inj hsplit
        exact hentry
    | cons newest later =>
        obtain ⟨-, hrest⟩ := List.cons.inj hsplit
        exact h later other earlier hrest

/-! ## Scripts -/

/-- Along a script indexed from `r` on, `P` holds up to an index where `Q` does. -/
def Until (P Q : Nat → Prop) (r : Nat) : Prop :=
  ∃ k, r ≤ k ∧ Q k ∧ ∀ j, r ≤ j → j < k → P j

/-- The index is the first one, or lies behind it. -/
theorem until_iff {P Q : Nat → Prop} {r : Nat} :
    Until P Q r ↔ Q r ∨ P r ∧ Until P Q (r + 1) := by
  constructor
  · rintro ⟨k, hk, hQ, hP⟩
    rcases Nat.eq_or_lt_of_le hk with rfl | hlt
    · exact Or.inl hQ
    · exact Or.inr ⟨hP r (Nat.le_refl r) hlt, k, hlt, hQ,
        fun j hj hjk => hP j (Nat.le_of_succ_le hj) hjk⟩
  · rintro (hQ | ⟨hr, k, hk, hQ, hP⟩)
    · exact ⟨r, Nat.le_refl r, hQ, fun j hj hjr => absurd hj (Nat.not_le.mpr hjr)⟩
    · refine ⟨k, Nat.le_of_succ_le hk, hQ, fun j hj hjk => ?_⟩
      rcases Nat.eq_or_lt_of_le hj with rfl | hlt
      · exact hr
      · exact hP j hlt hjk

/-- A weaker goal is met as well. -/
theorem Until.mono {P Q Q' : Nat → Prop} (himp : ∀ k, Q k → Q' k) {r : Nat}
    (h : Until P Q r) : Until P Q' r := by
  obtain ⟨k, hk, hQ, hP⟩ := h
  exact ⟨k, hk, himp k hQ, hP⟩

end Lib
end InfinityLabs
