import Mathlib.Tactic.Common

/-!
# Operator precedence with a stack of pending operators

Infix expressions are evaluated from the left to the right.  A pending entry is a left
operand together with its operator; it waits until an operator arrives that does not bind
tighter.  `reduce` applies the entries that an arriving operator releases and `collapse`
applies all of them.

An operator table has a precedence for every operator and a direction of grouping that
operators of one precedence share.  `leftLevel` and `rightLevel` are the least precedences
that may stand without brackets to the left and to the right of an operator.
-/

namespace InfinityLabs
namespace Lib
namespace Precedence

universe u v

/-- A table of infix operators. -/
structure OpTable (O : Type u) where
  prec : O → Nat
  right : O → Bool
  right_eq : ∀ {a b : O}, prec a = prec b → right a = right b

variable {O : Type u} {α : Type v}

/-- The arriving operator makes the waiting one apply. -/
def OpTable.Releases (T : OpTable O) (input top : O) : Prop :=
  ¬ (T.prec top < T.prec input ∨ (T.prec top = T.prec input ∧ T.right input = true))

instance (T : OpTable O) (input top : O) : Decidable (T.Releases input top) :=
  inferInstanceAs (Decidable (¬ _))

/-- The least precedence to the left of an operator. -/
def OpTable.leftLevel (T : OpTable O) (o : O) : Nat :=
  if T.right o then T.prec o + 1 else T.prec o

/-- The least precedence to the right of an operator. -/
def OpTable.rightLevel (T : OpTable O) (o : O) : Nat :=
  if T.right o then T.prec o else T.prec o + 1

theorem OpTable.prec_le_leftLevel (T : OpTable O) (o : O) : T.prec o ≤ T.leftLevel o := by
  rw [leftLevel]
  split <;> omega

theorem OpTable.prec_le_rightLevel (T : OpTable O) (o : O) : T.prec o ≤ T.rightLevel o := by
  rw [rightLevel]
  split <;> omega

/-- An operator releases what may stand to its left. -/
theorem OpTable.releases_of_leftLevel {T : OpTable O} {input top : O}
    (hlevel : T.leftLevel input ≤ T.prec top) : T.Releases input top := by
  rw [leftLevel] at hlevel
  intro hkeep
  rcases hkeep with hlt | ⟨heq, hright⟩
  · split at hlevel <;> omega
  · rw [if_pos hright] at hlevel
    omega

/-- An operator does not release one to whose right it may stand. -/
theorem OpTable.not_releases_of_rightLevel {T : OpTable O} {input top : O}
    (hlevel : T.rightLevel top ≤ T.prec input) : ¬ T.Releases input top := by
  rw [rightLevel] at hlevel
  rw [Releases, not_not]
  by_cases hright : T.right top = true
  · rw [if_pos hright] at hlevel
    rcases Nat.lt_or_eq_of_le hlevel with hlt | heq
    · exact Or.inl hlt
    · exact Or.inr ⟨heq, (T.right_eq heq).symm.trans hright⟩
  · rw [if_neg hright] at hlevel
    exact Or.inl hlevel

/-- Of two operators, one stands to the left of the other without brackets. -/
theorem OpTable.leftLevel_le_or_rightLevel_le (T : OpTable O) (first second : O) :
    T.leftLevel second ≤ T.prec first ∨ T.rightLevel first ≤ T.prec second := by
  by_cases hrel : T.Releases second first
  · left
    rw [Releases, not_or, Nat.not_lt, not_and] at hrel
    rw [leftLevel]
    split
    · have hne : T.prec first ≠ T.prec second := fun heq => hrel.2 heq ‹_›
      omega
    · exact hrel.1
  · right
    rw [Releases, not_not] at hrel
    rw [rightLevel]
    rcases hrel with hlt | ⟨heq, hright⟩
    · split <;> omega
    · rw [if_pos ((T.right_eq heq).trans hright)]
      omega

/-! ## Pending entries -/

/-- Left operands that wait with their operators, the last one first. -/
abbrev Pending (O : Type u) (α : Type v) := List (α × O)

variable (apply : O → α → α → Option α)

/-- All pending entries applied. -/
def collapse : α → Pending O α → Option α
  | v, [] => some v
  | v, (l, o) :: rest => (apply o l v).bind fun r => collapse r rest

/-- The pending entries applied from the last one on, as long as their operators are such. -/
def reduceWhile (released : O → Prop) [DecidablePred released] :
    α → Pending O α → Option (α × Pending O α)
  | v, [] => some (v, [])
  | v, (l, o) :: rest =>
      if released o then (apply o l v).bind fun r => reduceWhile released r rest
      else some (v, (l, o) :: rest)

/-- The pending entries applied that the operator `input` releases. -/
def reduce (T : OpTable O) (input : O) : α → Pending O α → Option (α × Pending O α) :=
  reduceWhile apply (T.Releases input)

/-- Where every operator is released, all entries are applied. -/
theorem reduceWhile_all {released : O → Prop} [DecidablePred released]
    (hall : ∀ o, released o) (v : α) (waiting : Pending O α) :
    reduceWhile apply released v waiting =
      (collapse apply v waiting).map fun r => (r, []) := by
  induction waiting generalizing v with
  | nil => rfl
  | cons entry rest ih =>
      obtain ⟨l, o⟩ := entry
      rw [reduceWhile, if_pos (hall o), collapse]
      cases apply o l v with
      | none => rfl
      | some r => exact ih r

theorem reduceWhile_congr {p q : O → Prop} [DecidablePred p] [DecidablePred q]
    (hiff : ∀ o, p o ↔ q o) (v : α) (waiting : Pending O α) :
    reduceWhile apply p v waiting = reduceWhile apply q v waiting := by
  induction waiting generalizing v with
  | nil => rfl
  | cons entry rest ih =>
      obtain ⟨l, o⟩ := entry
      simp only [reduceWhile, hiff o, ih]

/-- What is left of the entries is an end part of them. -/
theorem reduceWhile_suffix {released : O → Prop} [DecidablePred released] {v v' : α}
    {waiting waiting' : Pending O α}
    (h : reduceWhile apply released v waiting = some (v', waiting')) : waiting' <:+ waiting := by
  induction waiting generalizing v with
  | nil =>
      obtain ⟨-, rfl⟩ := Prod.mk.inj (Option.some.inj h)
      exact List.suffix_rfl
  | cons entry rest ih =>
      rw [reduceWhile] at h
      split at h
      · obtain ⟨r, -, hr⟩ := Option.bind_eq_some_iff.mp h
        exact (ih hr).trans (List.suffix_cons _ _)
      · obtain ⟨-, rfl⟩ := Prod.mk.inj (Option.some.inj h)
        exact List.suffix_rfl

/-- A predicate on values that the operations keep holds of what is left, or an operation
on such values is rejected. -/
theorem reduceWhile_closed (released : O → Prop) [DecidablePred released] {P : α → Prop}
    {Q : O → Prop}
    (hclosed : ∀ o l r v, Q o → P l → P r → apply o l r = some v → P v)
    {v : α} {waiting : Pending O α} (hv : P v)
    (hwaiting : ∀ entry ∈ waiting, P entry.1 ∧ Q entry.2) :
    (∀ result, reduceWhile apply released v waiting = some result → P result.1) ∧
      (reduceWhile apply released v waiting = none →
        ∃ o l r, Q o ∧ P l ∧ P r ∧ apply o l r = none) := by
  induction waiting generalizing v with
  | nil =>
      refine ⟨fun result h => ?_, fun h => nomatch h⟩
      obtain rfl := Option.some.inj h
      exact hv
  | cons entry rest ih =>
      obtain ⟨l, o⟩ := entry
      obtain ⟨hl, ho⟩ := hwaiting (l, o) List.mem_cons_self
      have hrest := fun e he => hwaiting e (List.mem_cons_of_mem _ he)
      rw [reduceWhile]
      split_ifs
      · cases happly : apply o l v with
        | none => exact ⟨fun _ h => (nomatch h), fun _ => ⟨o, l, v, ho, hl, hv, happly⟩⟩
        | some r => exact ih (hclosed o l v r ho hl hv happly) hrest
      · refine ⟨fun result h => ?_, fun h => nomatch h⟩
        obtain rfl := Option.some.inj h
        exact hv

/-- The same of all entries. -/
theorem collapse_closed {P : α → Prop} {Q : O → Prop}
    (hclosed : ∀ o l r v, Q o → P l → P r → apply o l r = some v → P v)
    {v : α} {waiting : Pending O α} (hv : P v)
    (hwaiting : ∀ entry ∈ waiting, P entry.1 ∧ Q entry.2) :
    (∀ r, collapse apply v waiting = some r → P r) ∧
      (collapse apply v waiting = none → ∃ o l r, Q o ∧ P l ∧ P r ∧ apply o l r = none) := by
  have hreduce := reduceWhile_closed apply (fun _ => True) hclosed hv hwaiting
  rw [reduceWhile_all apply fun _ => trivial] at hreduce
  refine ⟨fun r hr => ?_, fun hnone => hreduce.2 ?_⟩
  · exact hreduce.1 (r, []) (by rw [hr]; rfl)
  · rw [hnone]
    rfl

/-- The entries are applied one part after the other. -/
theorem collapse_append (v : α) (first second : Pending O α) :
    collapse apply v (first ++ second) =
      (collapse apply v first).bind fun r => collapse apply r second := by
  induction first generalizing v with
  | nil => rfl
  | cons entry rest ih =>
      obtain ⟨l, o⟩ := entry
      simp only [List.cons_append, collapse, Option.bind_assoc]
      congr 1
      funext r
      exact ih r

/-- The entries stop every operator from precedence `k` on. -/
def Guards (T : OpTable O) (k : Nat) (waiting : Pending O α) : Prop :=
  ∀ entry ∈ waiting.head?, ∀ input, k ≤ T.prec input → ¬ T.Releases input entry.2

theorem guards_nil (T : OpTable O) (k : Nat) : Guards T k ([] : Pending O α) := by
  intro entry hentry
  cases hentry

theorem Guards.mono {T : OpTable O} {k m : Nat} {waiting : Pending O α}
    (h : Guards T k waiting) (hle : k ≤ m) : Guards T m waiting :=
  fun entry hentry input hinput => h entry hentry input (Nat.le_trans hle hinput)

/-- A waiting operator stops what may stand to its right. -/
theorem guards_cons (T : OpTable O) (l : α) (o : O) (waiting : Pending O α) :
    Guards T (T.rightLevel o) ((l, o) :: waiting) := by
  intro entry hentry input hinput
  obtain rfl := Option.some.inj hentry
  exact OpTable.not_releases_of_rightLevel hinput

/-- Where the entries stop the operator, nothing is applied. -/
theorem reduce_of_guards {T : OpTable O} {k : Nat} {input : O} {waiting : Pending O α}
    (h : Guards T k waiting) (hk : k ≤ T.prec input) (v : α) :
    reduce apply T input v waiting = some (v, waiting) := by
  cases waiting with
  | nil => rfl
  | cons entry rest => rw [reduce, reduceWhile, if_neg (h entry rfl input hk)]

/-- An operator applies exactly the entries in front of those that stop it. -/
theorem reduce_append {T : OpTable O} {k : Nat} {input : O} {first waiting : Pending O α}
    (hfirst : ∀ entry ∈ first, T.Releases input entry.2) (hwaiting : Guards T k waiting)
    (hk : k ≤ T.prec input) (v : α) :
    reduce apply T input v (first ++ waiting) =
      (collapse apply v first).map fun r => (r, waiting) := by
  induction first generalizing v with
  | nil => exact reduce_of_guards apply hwaiting hk v
  | cons entry rest ih =>
      obtain ⟨l, o⟩ := entry
      have hrest := fun r => ih (fun e he => hfirst e (List.mem_cons_of_mem _ he)) r
      rw [List.cons_append, reduce, reduceWhile, if_pos (hfirst (l, o) List.mem_cons_self),
        collapse]
      cases apply o l v with
      | none => rfl
      | some r => exact hrest r

end Precedence
end Lib
end InfinityLabs
