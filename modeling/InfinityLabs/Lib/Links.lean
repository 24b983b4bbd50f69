import Mathlib.Data.List.Basic

/-!
# Lists of links

A list that is threaded through places: each place holds the next one, and 0, which is no
place, ends the list.
-/

namespace InfinityLabs
namespace Lib

/-- The links lead from `o` through the places of the list to 0. -/
def Linked (next : Nat → Nat) : Nat → List Nat → Prop
  | o, [] => o = 0
  | o, x :: l => o = x ∧ x ≠ 0 ∧ Linked next (next x) l

variable {next next' : Nat → Nat} {o x : Nat} {l : List Nat}

/-- A list depends on the links of its places. -/
theorem Linked.congr (h : Linked next o l) (hsame : ∀ x ∈ l, next' x = next x) :
    Linked next' o l := by
  induction l generalizing o with
  | nil => exact h
  | cons x l ih =>
      obtain ⟨hx, hne, hl⟩ := h
      refine ⟨hx, hne, ih ?_ fun y hy => hsame y (List.mem_cons_of_mem x hy)⟩
      rwa [hsame x List.mem_cons_self]

/-- A list from a place has this place. -/
theorem Linked.eq_cons (h : Linked next o l) (ho : o ≠ 0) :
    ∃ rest, l = o :: rest ∧ Linked next (next o) rest := by
  cases l with
  | nil => exact absurd h ho
  | cons x rest =>
      obtain ⟨rfl, -, hrest⟩ := h
      exact ⟨rest, rfl, hrest⟩

/-- The list from 0 is empty. -/
theorem Linked.eq_nil (h : Linked next 0 l) : l = [] := by
  cases l with
  | nil => rfl
  | cons x rest => exact absurd h.1.symm h.2.1

/-- No place is 0. -/
theorem Linked.ne_zero (h : Linked next o l) : ∀ x ∈ l, x ≠ 0 := by
  induction l generalizing o with
  | nil => exact fun x hx => absurd hx List.not_mem_nil
  | cons y l ih =>
      intro x hx
      rcases List.mem_cons.mp hx with rfl | hx
      · exact h.2.1
      · exact ih h.2.2 x hx

/-- The links from a place in the middle of a list lead through the rest of it. -/
theorem Linked.suffix {l' : List Nat} (h : Linked next o (l' ++ x :: l)) :
    Linked next x (x :: l) := by
  induction l' generalizing o with
  | nil =>
      obtain ⟨-, hne, hl⟩ := h
      exact ⟨rfl, hne, hl⟩
  | cons y l' ih => exact ih h.2.2

/-- The links from one place lead through one list. -/
theorem Linked.unique {l' : List Nat} (h : Linked next o l) (h' : Linked next o l') :
    l = l' := by
  induction l generalizing o l' with
  | nil =>
      rw [show o = 0 from h] at h'
      exact h'.eq_nil.symm
  | cons y l ih =>
      obtain ⟨rfl, hne, hl⟩ := h
      obtain ⟨rest, rfl, hrest⟩ := h'.eq_cons hne
      rw [ih hl hrest]

/-- No place comes twice. -/
theorem Linked.nodup (h : Linked next o l) : l.Nodup := by
  induction l generalizing o with
  | nil => exact List.nodup_nil
  | cons y l ih =>
      refine List.nodup_cons.mpr ⟨fun hmem => ?_, ih h.2.2⟩
      -- the links from a second `y` lead through the same list, which is shorter
      obtain ⟨l₁, l₂, rfl⟩ := List.append_of_mem hmem
      have hsuffix : Linked next y (y :: l₂) := h.2.2.suffix
      have hwhole : Linked next y (y :: (l₁ ++ y :: l₂)) := ⟨rfl, h.2.1, h.2.2⟩
      have heq := congrArg List.length (hsuffix.unique hwhole)
      simp only [List.length_cons, List.length_append] at heq
      omega

/-- A place before others is not the last of them. -/
theorem Linked.cons_concat {e : Nat} (h : Linked next o (x :: l ++ [e])) :
    o = x ∧ o ≠ e ∧ Linked next (next x) (l ++ [e]) := by
  have hnodup := h.nodup
  obtain ⟨rfl, -, hrest⟩ := h
  rw [List.cons_append, List.nodup_cons] at hnodup
  refine ⟨rfl, ?_, hrest⟩
  rintro rfl
  exact hnodup.1 (List.mem_append_right _ List.mem_cons_self)

/-- Another rest of the list is linked where the links of the places before it stay. -/
theorem Linked.replace {l₁ l₂ : List Nat} (h : Linked next o (l₁ ++ x :: l₂))
    (hsame : ∀ y ∈ l₁, next' y = next y) (hrest : Linked next' x (x :: l)) :
    Linked next' o (l₁ ++ x :: l) := by
  induction l₁ generalizing o with
  | nil =>
      rw [show o = x from h.1]
      exact hrest
  | cons y l₁ ih =>
      obtain ⟨rfl, hne, hl⟩ := h
      refine ⟨rfl, hne, ?_⟩
      rw [hsame o List.mem_cons_self]
      exact ih hl fun z hz => hsame z (List.mem_cons_of_mem o hz)

/-- A new place is linked in behind one of the list. -/
theorem Linked.insert {l₁ l₂ : List Nat} {a : Nat} (h : Linked next o (l₁ ++ a :: l₂))
    (hx : x ≠ 0) (ha : next' a = x) (hrest : next' x = next a)
    (hsame : ∀ y ∈ l₁ ++ l₂, next' y = next y) : Linked next' o (l₁ ++ a :: x :: l₂) := by
  obtain ⟨-, hne, hl₂⟩ := h.suffix
  refine h.replace (fun y hy => hsame y (List.mem_append_left l₂ hy)) ⟨rfl, hne, ha, hx, ?_⟩
  rw [hrest]
  exact hl₂.congr fun y hy => hsame y (List.mem_append_right l₁ hy)

/-- The place behind one of the list is taken out. -/
theorem Linked.remove {l₁ l₂ : List Nat} {a : Nat} (h : Linked next o (l₁ ++ a :: x :: l₂))
    (ha : next' a = next x) (hsame : ∀ y ∈ l₁ ++ l₂, next' y = next y) :
    Linked next' o (l₁ ++ a :: l₂) := by
  obtain ⟨-, hne, -, -, hl₂⟩ := h.suffix
  refine h.replace (fun y hy => hsame y (List.mem_append_left l₂ hy)) ⟨rfl, hne, ?_⟩
  rw [ha]
  exact hl₂.congr fun y hy => hsame y (List.mem_append_right l₁ hy)

/-- Two lists that share a place end alike. -/
theorem Linked.getLast?_eq_of_mem {o' : Nat} {l' : List Nat} (h : Linked next o l)
    (h' : Linked next o' l') (hmem : x ∈ l) (hmem' : x ∈ l') : l.getLast? = l'.getLast? := by
  obtain ⟨l₁, l₂, rfl⟩ := List.append_of_mem hmem
  obtain ⟨l₁', l₂', rfl⟩ := List.append_of_mem hmem'
  have heq := h.suffix.unique h'.suffix
  rw [List.getLast?_append_cons, List.getLast?_append_cons, heq]

end Lib
end InfinityLabs
