import Mathlib.Logic.Function.Basic
import Mathlib.Tactic.Common

/-!
# Snapshot transactions with write-conflict abort

A `Collection` maps keys to documents and stamps each key with the number of
commits that wrote it.  An open transaction sees the collection as it stood
when the transaction began, overlaid with the transaction's own writes (`View`).
It may commit only when no key that it wrote has been written by a commit since
its snapshot (`View.conflictFree`); then all its writes are applied at once.

The main result is `View.replay`: a transaction whose every operation reads the
document that it writes behaves at its commit as if all its operations had run,
one after the other, on the committed documents at that moment.
-/

namespace InfinityLabs
namespace Lib

universe u v

/-- Committed documents by key, each key stamped with its number of commits. -/
structure Collection (κ : Type u) (ν : Type v) where
  doc : κ → Option ν
  stamp : κ → Nat

/-- What an open transaction sees of a collection: the snapshot it began with
and its own writes, the latest first. -/
structure View (κ : Type u) (ν : Type v) where
  base : Collection κ ν
  writes : List (κ × ν)

variable {κ : Type u} {ν : Type v} [DecidableEq κ]

/-- One document operation on a table of documents: `f` maps the document under
`k` (or its absence) to the new document, or refuses. -/
def modifyDoc (d : κ → Option ν) (k : κ) (f : Option ν → Option ν) :
    Option (κ → Option ν) :=
  match f (d k) with
  | none => none
  | some x => some (Function.update d k (some x))

/-- Document operations one after the other. -/
def modifyDocs (d : κ → Option ν) : List (κ × (Option ν → Option ν)) →
    Option (κ → Option ν)
  | [] => some d
  | (k, f) :: rest =>
      match modifyDoc d k f with
      | none => none
      | some d' => modifyDocs d' rest

namespace View

/-- The view of a transaction that has just begun. -/
def openOn (c : Collection κ ν) : View κ ν :=
  { base := c, writes := [] }

/-- The transaction's last write of a key. -/
def written (w : View κ ν) (k : κ) : Option ν :=
  w.writes.lookup k

/-- A read inside the transaction: its own last write, else the snapshot. -/
def read (w : View κ ν) (k : κ) : Option ν :=
  match w.written k with
  | some x => some x
  | none => w.base.doc k

/-- One document operation inside the transaction, with the new document. -/
def modify (w : View κ ν) (k : κ) (f : Option ν → Option ν) :
    Option (ν × View κ ν) :=
  match f (w.read k) with
  | none => none
  | some x => some (x, { w with writes := (k, x) :: w.writes })

/-- Document operations one after the other inside the transaction. -/
def modifyAll (w : View κ ν) : List (κ × (Option ν → Option ν)) →
    Option (View κ ν)
  | [] => some w
  | (k, f) :: rest =>
      match w.modify k f with
      | none => none
      | some (_, w') => w'.modifyAll rest

/-- No key written by the transaction was committed since its snapshot. -/
def conflictFree (w : View κ ν) (c : Collection κ ν) : Bool :=
  w.writes.all fun entry => c.stamp entry.1 == w.base.stamp entry.1

/-- Commit: all the writes of the transaction at once. -/
def applyTo (w : View κ ν) (c : Collection κ ν) : Collection κ ν where
  doc k :=
    match w.written k with
    | some x => some x
    | none => c.doc k
  stamp k := if (w.written k).isSome then c.stamp k + 1 else c.stamp k

/-- The collection only moved forward since the snapshot, and a key with an
unchanged stamp still holds the document of the snapshot. -/
def Tracks (w : View κ ν) (c : Collection κ ν) : Prop :=
  ∀ k, w.base.stamp k ≤ c.stamp k ∧
    (c.stamp k = w.base.stamp k → c.doc k = w.base.doc k)

omit [DecidableEq κ] in
theorem tracks_openOn (c : Collection κ ν) : (openOn c).Tracks c :=
  fun _ => ⟨Nat.le_refl _, fun _ => rfl⟩

/-- Another transaction's commit keeps a view on track: what it wrote gets a
new stamp, the rest is unchanged. -/
theorem Tracks.applyTo {w : View κ ν} {c : Collection κ ν} (h : w.Tracks c)
    (other : View κ ν) : w.Tracks (other.applyTo c) := by
  intro k
  obtain ⟨hle, hdoc⟩ := h k
  cases hlook : other.written k with
  | none =>
      simp only [View.applyTo, hlook, Option.isSome_none, Bool.false_eq_true, if_false]
      exact ⟨hle, hdoc⟩
  | some x =>
      simp only [View.applyTo, hlook, Option.isSome_some, if_true]
      exact ⟨by omega, fun hstamp => by omega⟩

/-- A view's own operation does not move its snapshot. -/
theorem modify_base {w w' : View κ ν} {k : κ} {f : Option ν → Option ν} {x : ν}
    (h : w.modify k f = some (x, w')) : w'.base = w.base := by
  unfold modify at h
  split at h
  · cases h
  · cases h
    rfl

theorem Tracks.modify {w w' : View κ ν} {c : Collection κ ν} {k : κ}
    {f : Option ν → Option ν} {x : ν} (h : w.Tracks c)
    (hmodify : w.modify k f = some (x, w')) : w'.Tracks c := by
  intro j
  rw [modify_base hmodify]
  exact h j

/-- At a conflict-free commit every written key still holds the document of the
snapshot. -/
theorem doc_eq_base {w : View κ ν} {c : Collection κ ν} (htracks : w.Tracks c)
    (hfree : w.conflictFree c = true) {k : κ} {x : ν}
    (hwritten : w.written k = some x) : c.doc k = w.base.doc k := by
  have hmem : (k, x) ∈ w.writes := by
    obtain ⟨l₁, l₂, hsplit, -⟩ := List.lookup_eq_some_iff.mp hwritten
    rw [hsplit]
    simp
  have hstamp := List.all_eq_true.mp hfree (k, x) hmem
  exact (htracks k).2 (by simpa using hstamp)

/-- A commit installs what was written. -/
theorem applyTo_doc_of_written {w : View κ ν} (c : Collection κ ν) {k : κ}
    {x : ν} (h : w.written k = some x) : (w.applyTo c).doc k = some x := by
  simp [applyTo, h]

/-- What an operation does to the writes of a view. -/
theorem modify_eq_some {w w' : View κ ν} {k : κ} {f : Option ν → Option ν}
    {x : ν} (h : w.modify k f = some (x, w')) :
    f (w.read k) = some x ∧ w' = { w with writes := (k, x) :: w.writes } := by
  unfold modify at h
  split at h
  · cases h
  · rename_i y hy
    cases h
    exact ⟨hy, rfl⟩

theorem read_modify {w w' : View κ ν} {k : κ} {f : Option ν → Option ν}
    {x : ν} (h : w.modify k f = some (x, w')) (j : κ) :
    w'.read j = if j = k then some x else w.read j := by
  obtain ⟨-, rfl⟩ := modify_eq_some h
  by_cases hjk : j = k
  · subst hjk
    simp [read, written]
  · have hbeq : (j == k) = false := by simp [hjk]
    simp [read, written, hjk, List.lookup_cons, hbeq]

/-- The operation writes its new document under its key. -/
theorem written_modify_self {w w' : View κ ν} {k : κ}
    {f : Option ν → Option ν} {x : ν} (h : w.modify k f = some (x, w')) :
    w'.written k = some x := by
  obtain ⟨-, rfl⟩ := modify_eq_some h
  simp [written]

/-- A written key stays written. -/
theorem written_modify_isSome {w w' : View κ ν} {k : κ}
    {f : Option ν → Option ν} {x : ν} (h : w.modify k f = some (x, w'))
    {j : κ} (hj : j = k ∨ (w.written j).isSome) :
    (w'.written j).isSome := by
  obtain ⟨-, rfl⟩ := modify_eq_some h
  by_cases hjk : j = k
  · subst hjk
    simp [written]
  · have hbeq : (j == k) = false := by simp [hjk]
    simpa [written, List.lookup_cons, hbeq, hjk] using hj

/-- The first of some operations, and the rest of them. -/
theorem modifyAll_cons {w w' : View κ ν} {ops : List (κ × (Option ν → Option ν))} {k : κ}
    {f : Option ν → Option ν} (h : w.modifyAll ((k, f) :: ops) = some w') :
    ∃ x w₁, w.modify k f = some (x, w₁) ∧ w₁.modifyAll ops = some w' := by
  cases hm : w.modify k f with
  | none => simp [modifyAll, hm] at h
  | some p =>
      obtain ⟨x, w₁⟩ := p
      simp only [modifyAll, hm] at h
      exact ⟨x, w₁, rfl, h⟩

theorem written_modifyAll_isSome {w w' : View κ ν}
    {ops : List (κ × (Option ν → Option ν))} (h : w.modifyAll ops = some w')
    {j : κ} (hj : (w.written j).isSome) : (w'.written j).isSome := by
  induction ops generalizing w with
  | nil =>
      cases h
      exact hj
  | cons op rest ih =>
      obtain ⟨k, f⟩ := op
      obtain ⟨x, w₁, hm, h⟩ := modifyAll_cons h
      exact ih h (written_modify_isSome hm (Or.inr hj))

theorem modifyAll_base {w w' : View κ ν}
    {ops : List (κ × (Option ν → Option ν))} (h : w.modifyAll ops = some w') :
    w'.base = w.base := by
  induction ops generalizing w with
  | nil =>
      cases h
      rfl
  | cons op rest ih =>
      obtain ⟨k, f⟩ := op
      obtain ⟨x, w₁, hm, h⟩ := modifyAll_cons h
      exact (ih h).trans (modify_base hm)

/-- Appending one more operation to a list of operations. -/
theorem modifyAll_snoc {w w₁ w₂ : View κ ν}
    {ops : List (κ × (Option ν → Option ν))} {k : κ} {f : Option ν → Option ν}
    {x : ν} (h : w.modifyAll ops = some w₁)
    (hmodify : w₁.modify k f = some (x, w₂)) :
    w.modifyAll (ops ++ [(k, f)]) = some w₂ := by
  induction ops generalizing w with
  | nil =>
      cases h
      simp [modifyAll, hmodify]
  | cons op rest ih =>
      obtain ⟨j, g⟩ := op
      obtain ⟨y, w', hm, h⟩ := modifyAll_cons h
      simp only [List.cons_append, modifyAll, hm]
      exact ih h

/-- The keys that a transaction has written, the latest first, are those of its
operations. -/
theorem writes_keys {w w' : View κ ν}
    {ops : List (κ × (Option ν → Option ν))} (h : w.modifyAll ops = some w') :
    w'.writes.map Prod.fst = (ops.map Prod.fst).reverse ++ w.writes.map Prod.fst := by
  induction ops generalizing w with
  | nil =>
      cases h
      rfl
  | cons op rest ih =>
      obtain ⟨k, f⟩ := op
      obtain ⟨x, w₁, hm, h⟩ := modifyAll_cons h
      rw [ih h]
      obtain ⟨-, rfl⟩ := modify_eq_some hm
      simp

/-- The step of `replay`: a view and a table of documents that agree on the
keys in `touched`, and operations on these keys only, give a view and a table
that agree again; the table moves only inside `touched`. -/
private theorem replay_from {touched : κ → Prop} {w w' : View κ ν}
    {d : κ → Option ν} {ops : List (κ × (Option ν → Option ν))}
    (hagree : ∀ k, touched k → w.read k = d k)
    (h : w.modifyAll ops = some w')
    (htouched : ∀ k, (w'.written k).isSome → touched k) :
    ∃ d', modifyDocs d ops = some d' ∧
      (∀ k, touched k → w'.read k = d' k) ∧ (∀ k, ¬ touched k → d' k = d k) := by
  induction ops generalizing w d with
  | nil =>
      cases h
      exact ⟨d, rfl, hagree, fun _ _ => rfl⟩
  | cons op rest ih =>
      obtain ⟨k, f⟩ := op
      obtain ⟨x, w₁, hm, h⟩ := modifyAll_cons h
      -- the key is written now, and a written key stays written
      have hk : touched k :=
        htouched k (written_modifyAll_isSome h (written_modify_isSome hm (Or.inl rfl)))
      have hf : f (d k) = some x := by
        rw [← hagree k hk]
        exact (modify_eq_some hm).1
      have hagree₁ : ∀ j, touched j →
          w₁.read j = Function.update d k (some x) j := by
        intro j hj
        rw [read_modify hm j]
        by_cases hjk : j = k
        · subst hjk
          simp
        · simp [hjk, hagree j hj]
      obtain ⟨d', hd', hread, hframe⟩ := ih hagree₁ h
      refine ⟨d', by simp [modifyDocs, modifyDoc, hf, hd'], hread, ?_⟩
      intro j hj
      have hjk : j ≠ k := fun e => hj (e ▸ hk)
      rw [hframe j hj]
      simp [hjk]

/-- **Commits are atomic.**  When a transaction that is on track commits free of
conflict, its operations run one after the other on the committed documents,
and their outcome is what the commit installs. -/
theorem replay {base c : Collection κ ν} {w : View κ ν}
    {ops : List (κ × (Option ν → Option ν))}
    (hops : (openOn base).modifyAll ops = some w) (htracks : w.Tracks c)
    (hfree : w.conflictFree c = true) :
    modifyDocs c.doc ops = some (w.applyTo c).doc := by
  have hbase : w.base = base := modifyAll_base hops
  have hagree : ∀ k, (w.written k).isSome →
      (openOn base).read k = c.doc k := by
    intro k hk
    obtain ⟨x, hx⟩ := Option.isSome_iff_exists.mp hk
    rw [doc_eq_base htracks hfree hx, hbase]
    rfl
  obtain ⟨d', hd', hread, hframe⟩ :=
    replay_from hagree hops fun _ hk => hk
  rw [hd']
  congr 1
  funext k
  cases hlook : w.written k with
  | none =>
      have := hframe k (by simp [hlook])
      simpa [applyTo, hlook] using this
  | some x =>
      have := hread k (by simp [hlook])
      simp only [read, hlook] at this
      simp [applyTo, hlook, ← this]

end View
end Lib
end InfinityLabs
