import Mathlib.Algebra.GroupWithZero.Nat
import Mathlib.Data.List.Nodup
import Mathlib.Data.List.Perm.Subperm
import Mathlib.Tactic.Common

/-!
# Lists taken apart at a place

A list is taken apart at one of its places into what comes before, the element, and what comes
after.  Reading and writing there act on the element alone.
-/

namespace InfinityLabs
namespace Lib

variable {α : Type}

/-! ## At the place -/

theorem getElem?_split (l₁ l₂ : List α) (a : α) : (l₁ ++ a :: l₂)[l₁.length]? = some a := by
  rw [List.getElem?_append_right (Nat.le_refl _), Nat.sub_self, List.getElem?_cons_zero]

theorem eraseIdx_split (l₁ l₂ : List α) (a : α) :
    (l₁ ++ a :: l₂).eraseIdx l₁.length = l₁ ++ l₂ := by
  rw [List.eraseIdx_append_of_length_le (Nat.le_refl _), Nat.sub_self, List.eraseIdx_cons_zero]

theorem set_split (l₁ l₂ : List α) (a b : α) :
    (l₁ ++ a :: l₂).set l₁.length b = l₁ ++ b :: l₂ := by
  rw [List.set_append_right _ _ (Nat.le_refl _), Nat.sub_self, List.set_cons_zero]

theorem modify_split (l₁ l₂ : List α) (a : α) (f : α → α) :
    (l₁ ++ a :: l₂).modify l₁.length f = l₁ ++ f a :: l₂ := by
  induction l₁ with
  | nil => rfl
  | cons b l₁ ih =>
      rw [List.cons_append, List.length_cons, List.modify_succ_cons, ih, List.cons_append]

/-- The places around a pair in the other direction. -/
theorem reverse_pair (l₁ l₂ : List α) (a b : α) :
    (l₁ ++ a :: b :: l₂).reverse = l₂.reverse ++ b :: a :: l₁.reverse := by
  simp

theorem reverse_triple (l₁ l₂ : List α) (a b c : α) :
    (l₁ ++ a :: b :: c :: l₂).reverse = l₂.reverse ++ c :: b :: a :: l₁.reverse := by
  simp

/-! ## Taking apart -/

/-- A list has parts at every place. -/
theorem exists_append_cons_of_lt {l : List α} {i : Nat} (h : i < l.length) :
    ∃ l₁ a l₂, l = l₁ ++ a :: l₂ ∧ l₁.length = i := by
  refine ⟨l.take i, l[i], l.drop (i + 1), ?_, List.length_take_of_le (Nat.le_of_lt h)⟩
  rw [List.getElem_cons_drop, List.take_append_drop]

/-- A list has a part of every length up to its own. -/
theorem exists_append_of_le {l : List α} {k : Nat} (h : k ≤ l.length) :
    ∃ l₁ l₂, l = l₁ ++ l₂ ∧ l₁.length = k :=
  ⟨l.take k, l.drop k, (List.take_append_drop k l).symm, List.length_take_of_le h⟩

/-- A list has parts before, in and after every range. -/
theorem exists_range {l : List α} {i j : Nat} (hij : i ≤ j) (hj : j ≤ l.length) :
    ∃ l₁ l₂ l₃, l = l₁ ++ (l₂ ++ l₃) ∧ l₁.length = i ∧ l₁.length + l₂.length = j := by
  obtain ⟨l, l₃, rfl, rfl⟩ := exists_append_of_le hj
  obtain ⟨l₁, l₂, rfl, rfl⟩ := exists_append_of_le hij
  exact ⟨l₁, l₂, l₃, List.append_assoc .., rfl, List.length_append.symm⟩

/-- A list taken apart at an element. -/
theorem exists_append_cons_of_getElem? {l : List α} {i : Nat} {a : α} (h : l[i]? = some a) :
    ∃ l₁ l₂, l = l₁ ++ a :: l₂ ∧ l₁.length = i := by
  obtain ⟨l₁, b, l₂, rfl, rfl⟩ :=
    exists_append_cons_of_lt (List.getElem?_eq_some_iff.mp h).1
  rw [getElem?_split] at h
  obtain rfl := Option.some.inj h
  exact ⟨l₁, l₂, rfl, rfl⟩

/-- What replacing or erasing at a place makes of a list. -/
theorem exists_split_of_getElem? {l : List α} {i : Nat} {a : α} (h : l[i]? = some a) :
    ∃ l₁ l₂, l = l₁ ++ a :: l₂ ∧ (∀ b, l.set i b = l₁ ++ b :: l₂) ∧
      l.eraseIdx i = l₁ ++ l₂ := by
  obtain ⟨l₁, l₂, rfl, rfl⟩ := exists_append_cons_of_getElem? h
  exact ⟨l₁, l₂, rfl, set_split l₁ l₂ a, eraseIdx_split l₁ l₂ a⟩

/-- The other elements are elements. -/
theorem mem_split_of_mem {l₁ l₂ : List α} {a b : α} (hb : b ∈ l₁ ++ l₂) : b ∈ l₁ ++ a :: l₂ :=
  (List.mem_append.mp hb).elim (List.mem_append_left _) fun hb₂ =>
    List.mem_append_right _ (List.mem_cons_of_mem a hb₂)

/-- The other elements of a list without repetition are different. -/
theorem ne_of_mem_split {l₁ l₂ : List α} {a b : α} (hnodup : (l₁ ++ a :: l₂).Nodup)
    (hb : b ∈ l₁ ++ l₂) : b ≠ a := by
  rw [List.nodup_middle, List.nodup_cons] at hnodup
  rintro rfl
  exact hnodup.1 hb

/-- Different numbers below a bound, other than 0, are fewer than the bound. -/
theorem length_lt_of_nodup {l : List Nat} {bound : Nat} (hpos : 0 < bound) (hnodup : l.Nodup)
    (hzero : ∀ x ∈ l, x ≠ 0) (hlt : ∀ x ∈ l, x < bound) :
    l.length < bound := by
  have hcons : (0 :: l).Nodup :=
    List.nodup_cons.mpr ⟨fun hmem => hzero 0 hmem rfl, hnodup⟩
  have hsubset : 0 :: l ⊆ List.range bound := by
    intro x hmem
    rcases List.mem_cons.mp hmem with rfl | hmem
    · exact List.mem_range.mpr hpos
    · exact List.mem_range.mpr (hlt x hmem)
  have hle := (List.subperm_of_subset hcons hsubset).length_le
  rwa [List.length_range] at hle

/-- An element stays at its place when a list grows. -/
theorem getElem?_of_prefix {l l' : List α} {i : Nat} {a : α} (h : l <+: l')
    (ha : l[i]? = some a) : l'[i]? = some a := by
  obtain ⟨rest, rfl⟩ := h
  rw [List.getElem?_append_left (List.getElem?_eq_some_iff.mp ha).1, ha]

/-- What stands in a list with one more element at its end. -/
theorem of_getElem?_append_singleton {l : List α} {i : Nat} {a b : α}
    (hget : (l ++ [a])[i]? = some b) : i < l.length ∧ l[i]? = some b ∨ i = l.length ∧ b = a := by
  by_cases hi : i < l.length
  case pos =>
    rw [List.getElem?_append_left hi] at hget
    exact Or.inl ⟨hi, hget⟩
  case neg =>
    have hlt := (List.getElem?_eq_some_iff.mp hget).1
    rw [List.length_append, List.length_singleton] at hlt
    obtain rfl : i = l.length := by omega
    rw [getElem?_split, Option.some.injEq] at hget
    exact Or.inr ⟨rfl, hget.symm⟩

/-- Two lists with a mark in them are the same: the marks stand at one place, or the mark of one
is an element of the other in front of its own or behind it. -/
theorem append_cons_eq_append_cons_iff {x y z w : List α} {s : α} :
    x ++ s :: y = z ++ s :: w ↔ x = z ∧ y = w ∨
      ∃ r, z = x ++ s :: r ∧ y = r ++ s :: w ∨ x = z ++ s :: r ∧ w = r ++ s :: y := by
  constructor
  · intro heq
    rcases List.append_eq_append_iff.mp heq with ⟨m, rfl, hrest⟩ | ⟨m, rfl, hrest⟩
    · cases m with
      | nil =>
          simp at hrest
          exact Or.inl ⟨by simp, hrest⟩
      | cons c r =>
          simp at hrest
          exact Or.inr ⟨r, Or.inl ⟨by rw [hrest.1], hrest.2⟩⟩
    · cases m with
      | nil =>
          simp at hrest
          exact Or.inl ⟨by simp, hrest.symm⟩
      | cons c r =>
          simp at hrest
          exact Or.inr ⟨r, Or.inr ⟨by rw [hrest.1], hrest.2⟩⟩
  · rintro (⟨rfl, rfl⟩ | ⟨r, ⟨rfl, rfl⟩ | ⟨rfl, rfl⟩⟩)
    · rfl
    · simp
    · simp

/-! ## Replacing an element -/

/-- What stands at a place after an element was replaced. -/
theorem of_getElem?_set {l : List α} {i j : Nat} {b c : α} (hget : (l.set i b)[j]? = some c) :
    j = i ∧ c = b ∨ j ≠ i ∧ l[j]? = some c := by
  by_cases hj : j = i
  case pos =>
    have hlt := (List.getElem?_eq_some_iff.mp hget).1
    rw [List.length_set] at hlt
    rw [hj, List.getElem?_set_self (hj ▸ hlt), Option.some.injEq] at hget
    exact Or.inl ⟨hj, hget.symm⟩
  case neg =>
    rw [List.getElem?_set_ne (Ne.symm hj)] at hget
    exact Or.inr ⟨hj, hget⟩

/-- How replacing an element changes a count. -/
theorem countP_set_add {l : List α} {i : Nat} {a : α} {p : α → Bool} (h : l[i]? = some a)
    (b : α) :
    (l.set i b).countP p + (if p a then 1 else 0) = l.countP p + if p b then 1 else 0 := by
  obtain ⟨l₁, l₂, rfl, hset, -⟩ := exists_split_of_getElem? h
  rw [hset, List.countP_append, List.countP_append, List.countP_cons, List.countP_cons]
  omega

/-- How replacing an element changes the number of times that one occurs. -/
theorem count_set_add [BEq α] {l : List α} {i : Nat} {a : α} (h : l[i]? = some a) (b c : α) :
    (l.set i b).count c + (if a == c then 1 else 0) = l.count c + if b == c then 1 else 0 := by
  have hcount := countP_set_add (p := (· == c)) h b
  simpa only [List.count_eq_countP] using hcount

/-- How replacing an element changes a sum. -/
theorem sum_map_set_add {l : List α} {i : Nat} {a : α} (h : l[i]? = some a) (b : α)
    (f : α → Nat) : ((l.set i b).map f).sum + f a = (l.map f).sum + f b := by
  obtain ⟨l₁, l₂, rfl, hset, -⟩ := exists_split_of_getElem? h
  rw [hset, List.map_append, List.map_append, List.map_cons, List.map_cons, List.sum_append,
    List.sum_append, List.sum_cons, List.sum_cons]
  omega

/-- Where an element passes only if the one at its place does, no more of them pass. -/
theorem countP_le_of_getElem? {l l' : List α} {p : α → Bool} (hlength : l'.length = l.length)
    (h : ∀ (i : Nat) a b, l[i]? = some a → l'[i]? = some b → p b = true → p a = true) :
    l'.countP p ≤ l.countP p := by
  induction l generalizing l' with
  | nil =>
      obtain rfl : l' = [] := List.length_eq_zero_iff.mp hlength
      exact Nat.le_refl _
  | cons a l ih =>
      cases l' with
      | nil => exact Nat.zero_le _
      | cons b l' =>
          have hrest := ih (Nat.succ.inj hlength) fun i => h (i + 1)
          have hfirst := h 0 a b rfl rfl
          rw [List.countP_cons, List.countP_cons]
          by_cases hb : p b = true
          case pos => simp only [hb, hfirst hb, if_true]; omega
          case neg => simp only [hb, Bool.false_eq_true, if_false]; omega

/-- Where no element is worth more than the one at its place, the sum is not larger. -/
theorem sum_map_le_of_getElem? {l l' : List α} {f : α → Nat} (hlength : l'.length = l.length)
    (h : ∀ (i : Nat) a b, l[i]? = some a → l'[i]? = some b → f b ≤ f a) :
    (l'.map f).sum ≤ (l.map f).sum := by
  induction l generalizing l' with
  | nil =>
      obtain rfl : l' = [] := List.length_eq_zero_iff.mp hlength
      exact Nat.le_refl _
  | cons a l ih =>
      cases l' with
      | nil => exact Nat.zero_le _
      | cons b l' =>
          have hrest := ih (Nat.succ.inj hlength) fun i => h (i + 1)
          have hfirst := h 0 a b rfl rfl
          rw [List.map_cons, List.map_cons, List.sum_cons, List.sum_cons]
          exact Nat.add_le_add hfirst hrest

/-- An element that passes counts. -/
theorem countP_pos_of_getElem? {l : List α} {i : Nat} {a : α} (h : l[i]? = some a)
    {p : α → Bool} (hp : p a = true) : 0 < l.countP p :=
  List.countP_pos_iff.mpr ⟨a, List.mem_of_getElem? h, hp⟩

/-- An occupied slot that is written stays occupied. -/
theorem countP_isSome_set_some {l : List (Option α)} {i : Nat} {a : α} (h : l[i]? = some (some a))
    (b : α) : (l.set i (some b)).countP Option.isSome = l.countP Option.isSome := by
  have hcount := countP_set_add (p := Option.isSome) h (some b)
  simpa using hcount

/-- An occupied slot that is emptied counts no more. -/
theorem countP_isSome_set_none {l : List (Option α)} {i : Nat} {a : α}
    (h : l[i]? = some (some a)) :
    (l.set i none).countP Option.isSome + 1 = l.countP Option.isSome := by
  have hcount := countP_set_add (p := Option.isSome) h none
  simpa using hcount

/-- A value is in occupied slots. -/
theorem count_some_le_countP_isSome [BEq (Option α)] [LawfulBEq (Option α)]
    (l : List (Option α)) (a : α) : l.count (some a) ≤ l.countP Option.isSome := by
  rw [List.count_eq_countP]
  refine List.countP_mono_left fun slot _ heq => ?_
  rw [eq_of_beq heq]
  rfl

/-- What every element meets, every element meets after one has been replaced. -/
theorem forall_mem_set {l : List α} {i : Nat} {b : α} {p : α → Prop} (h : ∀ a ∈ l, p a)
    (hb : p b) : ∀ a ∈ l.set i b, p a := fun a ha =>
  (List.mem_or_eq_of_mem_set ha).elim (h a) fun heq => heq ▸ hb

/-- What every element meets, every element meets after one more has been put at the end. -/
theorem forall_mem_concat {l : List α} {b : α} {p : α → Prop} (h : ∀ a ∈ l, p a) (hb : p b) :
    ∀ a ∈ l ++ [b], p a :=
  List.forall_mem_append.mpr ⟨h, List.forall_mem_singleton.mpr hb⟩

variable {β : Type}

/-- Replacing an element by one with the same image keeps the images. -/
theorem filterMap_set_of_eq {l : List α} {i : Nat} {a : α} (f : α → Option β)
    (h : l[i]? = some a) (b : α) (heq : f b = f a) : (l.set i b).filterMap f = l.filterMap f := by
  obtain ⟨l₁, l₂, rfl, hset, -⟩ := exists_split_of_getElem? h
  rw [hset, List.filterMap_append, List.filterMap_append, List.filterMap_cons,
    List.filterMap_cons, heq]

/-- Replacing an element without an image by one with an image adds it. -/
theorem filterMap_set_of_none {l : List α} {i : Nat} {a b : α} {c : β} (f : α → Option β)
    (h : l[i]? = some a) (ha : f a = none) (hb : f b = some c) :
    ((l.set i b).filterMap f).Perm (l.filterMap f ++ [c]) := by
  obtain ⟨l₁, l₂, rfl, hset, -⟩ := exists_split_of_getElem? h
  rw [hset, List.filterMap_append, List.filterMap_append, List.filterMap_cons_none ha,
    List.filterMap_cons_some hb, List.append_assoc]
  exact (List.perm_append_singleton c _).symm.append_left _

/-! ## The only element that passes a test -/

/-- Where at most one element passes, its place in the list does not matter. -/
theorem find?_eq_of_perm {l l' : List α} {p : α → Bool} (hperm : l.Perm l')
    (hunique : l.Pairwise fun a b => ¬ (p a ∧ p b)) : l.find? p = l'.find? p := by
  have hfilter := hperm.filter p
  have hle : (l.filter p).length ≤ 1 := by
    match hl : l.filter p with
    | [] => exact Nat.zero_le 1
    | [_] => exact Nat.le_refl 1
    | a :: b :: rest =>
        have hpair := hunique.filter p
        rw [hl] at hpair
        have hpass : ∀ c ∈ a :: b :: rest, p c := fun c hc => (List.mem_filter.mp (hl ▸ hc)).2
        have hab := List.rel_of_pairwise_cons hpair List.mem_cons_self
        exact absurd ⟨hpass a List.mem_cons_self,
          hpass b (List.mem_cons_of_mem a List.mem_cons_self)⟩ hab
  rw [← List.head?_filter, ← List.head?_filter]
  match hl : l.filter p, hle with
  | [], _ => rw [hl, List.nil_perm] at hfilter; rw [hfilter]
  | [a], _ => rw [hl, List.singleton_perm] at hfilter; rw [hfilter]

/-- The others are what is left without it. -/
theorem filter_not_split {l₁ l₂ : List α} {a : α} {p : α → Bool} (hpass : p a)
    (hunique : (l₁ ++ a :: l₂).Pairwise fun a b => ¬ (p a ∧ p b)) :
    (l₁ ++ a :: l₂).filter (fun b => !p b) = l₁ ++ l₂ := by
  obtain ⟨-, hright, hleft⟩ := List.pairwise_append.mp hunique
  have hothers : ∀ b ∈ l₁ ++ l₂, (!p b) = true := by
    intro b hb
    rw [Bool.not_eq_true', Bool.eq_false_iff]
    intro hpassB
    rcases List.mem_append.mp hb with hb | hb
    · exact hleft b hb a List.mem_cons_self ⟨hpassB, hpass⟩
    · exact List.rel_of_pairwise_cons hright hb ⟨hpass, hpassB⟩
  rw [List.filter_append, List.filter_cons_of_neg (by simp [hpass]), ← List.filter_append,
    List.filter_eq_self.mpr hothers]

/-! ## Before the end -/

/-- An insertion before the end of a list. -/
theorem insertIdx_append_singleton {c l₁ l₂ : List α} {x y z : α}
    (h : c ++ [z] = l₁ ++ y :: l₂) :
    c.insertIdx l₁.length x ++ [z] = l₁ ++ x :: y :: l₂ := by
  induction l₁ generalizing c with
  | nil =>
      rw [List.length_nil, List.insertIdx_zero, List.cons_append, h]
      rfl
  | cons w l₁ ih =>
      cases c with
      | nil => simp at h
      | cons v c =>
          rw [List.cons_append, List.cons_append, List.cons.injEq] at h
          rw [List.length_cons, List.insertIdx_succ_cons, List.cons_append, ih h.2, h.1]
          rfl

/-- A removal before the end of a list. -/
theorem eraseIdx_append_singleton {c l₁ l₂ : List α} {x y z : α}
    (h : c ++ [z] = l₁ ++ x :: y :: l₂) : c.eraseIdx l₁.length ++ [z] = l₁ ++ y :: l₂ := by
  induction l₁ generalizing c with
  | nil =>
      cases c with
      | nil => simp at h
      | cons v c =>
          rw [List.cons_append, List.nil_append, List.cons.injEq] at h
          exact h.2
  | cons w l₁ ih =>
      cases c with
      | nil => simp at h
      | cons v c =>
          rw [List.cons_append, List.cons_append, List.cons.injEq] at h
          rw [List.length_cons, List.eraseIdx_cons_succ, List.cons_append, ih h.2, h.1]
          rfl

end Lib
end InfinityLabs
