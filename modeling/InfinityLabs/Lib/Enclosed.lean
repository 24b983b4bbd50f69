import Mathlib.Data.List.TakeWhile
import Mathlib.Tactic.Common

/-!
# Cutting out what is enclosed

Everything from an opening mark to the first closing mark behind it is cut out of a text, from
left to right.  A mark that is never closed stays.  The result encloses nothing more, but what
stood in front of and behind a part that is cut out comes together, so that an end of the result
may come from the middle of the text.
-/

namespace InfinityLabs
namespace Lib

variable {α : Type} {o c : α}

/-- `t` is what is left of `s`. -/
inductive Stripped (o c : α) : List α → List α → Prop
  | nil : Stripped o c [] []
  | keep {x : α} {s t : List α} (hx : x ≠ o ∨ c ∉ s) (hrest : Stripped o c s t) :
      Stripped o c (x :: s) (x :: t)
  | drop {b s t : List α} (hb : c ∉ b) (hrest : Stripped o c s t) :
      Stripped o c (o :: (b ++ c :: s)) t

/-- Nothing but enclosed parts, one after the other. -/
inductive Tags (o c : α) : List α → Prop
  | nil : Tags o c []
  | cons {b s : List α} (hb : c ∉ b) (hrest : Tags o c s) : Tags o c (o :: (b ++ c :: s))

/-- An opening mark with a closing mark somewhere behind it. -/
def Encloses (o c : α) (s : List α) : Prop :=
  ∃ a b d, s = a ++ o :: (b ++ c :: d)

/-- An opening mark that is not closed. -/
def Opens (o c : α) (s : List α) : Prop :=
  ∃ a b, s = a ++ o :: b ∧ c ∉ b

/-! ## Marks -/

theorem Tags.closing_mem {p : List α} (hp : Tags o c p) (hne : p ≠ []) : c ∈ p := by
  cases hp with
  | nil => exact absurd rfl hne
  | cons hb hrest => simp

theorem Opens.cons {s : List α} (x : α) (h : Opens o c s) : Opens o c (x :: s) := by
  obtain ⟨a, b, rfl, hb⟩ := h
  exact ⟨x :: a, b, rfl, hb⟩

/-- An opening mark in front of a closing one is closed. -/
theorem Opens.behind {a s : List α} (h : Opens o c (a ++ c :: s)) (hne : o ≠ c) :
    Opens o c s := by
  obtain ⟨a', b, heq, hb⟩ := h
  rcases List.append_eq_append_iff.mp heq with ⟨m, rfl, hs⟩ | ⟨m, rfl, hs⟩
  · cases m with
    | nil =>
        simp at hs
        exact absurd hs.1.symm hne
    | cons y m =>
        simp at hs
        exact ⟨m, b, hs.2, hb⟩
  · cases m with
    | nil =>
        simp at hs
        exact absurd hs.1 hne
    | cons y m =>
        simp at hs
        simp [hs.2] at hb

theorem Opens.append_left {s : List α} (a : List α) (h : Opens o c s) : Opens o c (a ++ s) := by
  obtain ⟨a', b, rfl, hb⟩ := h
  exact ⟨a ++ a', b, by simp, hb⟩

namespace Stripped

/-- The part that is cut out ends at the first closing mark. -/
theorem drop_first [BEq α] [LawfulBEq α] {s t : List α} (hs : c ∈ s)
    (h : Stripped o c ((s.dropWhile (· != c)).drop 1) t) : Stripped o c (o :: s) t := by
  have hsplit := List.takeWhile_append_dropWhile (p := (· != c)) (l := s)
  have hstop : c ∉ s.takeWhile (· != c) := fun hmem => by
    have hne := List.mem_takeWhile_imp hmem
    simp at hne
  cases hdrop : s.dropWhile (· != c) with
  | nil =>
      have hne := List.dropWhile_eq_nil_iff.mp hdrop c hs
      simp at hne
  | cons y behind =>
      have hhead := List.head?_dropWhile_not (· != c) s
      simp [hdrop] at hhead
      subst hhead
      rw [hdrop] at h hsplit
      rw [← hsplit]
      exact Stripped.drop hstop h

/-! ## What is left -/

theorem sublist {s t : List α} (h : Stripped o c s t) : t.Sublist s := by
  induction h with
  | nil => exact List.Sublist.refl []
  | keep hx hrest ih => exact ih.cons_cons _
  | drop hb hrest ih =>
      have hbehind := ih.trans (List.sublist_cons_self c _)
      exact (hbehind.trans (List.sublist_append_right _ _)).cons o

/-- Nothing is enclosed in what is left. -/
theorem not_encloses {s t : List α} (h : Stripped o c s t) : ¬ Encloses o c t := by
  induction h with
  | nil =>
      rintro ⟨a, b, d, heq⟩
      simp at heq
  | keep hx hrest ih =>
      rintro ⟨a, b, d, heq⟩
      cases a with
      | nil =>
          simp at heq
          obtain ⟨rfl, rfl⟩ := heq
          -- a closing mark that is left was there before
          have hmem := hrest.sublist.mem (List.mem_append_right b List.mem_cons_self)
          simp [hmem] at hx
      | cons y a =>
          simp at heq
          exact ih ⟨a, b, d, heq.2⟩
  | drop hb hrest ih => exact ih

/-- An element that is kept at the front. -/
theorem of_keep {x : α} {s t : List α} (h : Stripped o c (x :: s) t) (hx : x ≠ o ∨ c ∉ s) :
    ∃ rest, t = x :: rest ∧ Stripped o c s rest := by
  cases h with
  | keep _ hrest => exact ⟨_, rfl, hrest⟩
  | drop hb hrest => simp at hx

/-- A part that is cut out at the front. -/
theorem of_drop {b s t : List α} (h : Stripped o c (o :: (b ++ c :: s)) t) (hb : c ∉ b) :
    Stripped o c s t := by
  generalize hw : o :: (b ++ c :: s) = w at h
  cases h with
  | nil => simp at hw
  | keep hx hrest =>
      simp at hw
      obtain ⟨rfl, rfl⟩ := hw
      simp at hx
  | @drop b' s' _ hb' hrest =>
      simp at hw
      -- both parts end with the first closing mark
      have hsame : b = b' ∧ s = s' := by
        rcases List.append_eq_append_iff.mp hw with ⟨m, hm, hs⟩ | ⟨m, hm, hs⟩
        · cases m with
          | nil => simp_all
          | cons y m => simp_all
        · cases m with
          | nil => simp_all
          | cons y m => simp_all
      rw [hsame.2]
      exact hrest

/-- Enclosed parts at the front are cut out. -/
theorem of_tags {p s t : List α} (hp : Tags o c p) (h : Stripped o c (p ++ s) t) :
    Stripped o c s t := by
  induction hp with
  | nil => exact h
  | cons hb hrest ih =>
      apply ih
      apply of_drop _ hb
      simpa using h

/-! ## The ends -/

/-- **Nothing is left** exactly of enclosed parts. -/
theorem eq_nil_iff {s t : List α} (h : Stripped o c s t) : t = [] ↔ Tags o c s := by
  constructor
  · intro ht
    induction h with
    | nil => exact Tags.nil
    | keep hx hrest ih => cases ht
    | drop hb hrest ih => exact Tags.cons hb (ih ht)
  · intro hs
    have hnil := of_tags hs (s := []) (by simpa using h)
    cases hnil
    rfl

/-- **The first element** that is left: enclosed parts stood before it. -/
theorem head?_iff {s t : List α} (h : Stripped o c s t) {x : α} (hx : x ≠ o) :
    t.head? = some x ↔ ∃ p rest, s = p ++ x :: rest ∧ Tags o c p := by
  constructor
  · intro ht
    induction h with
    | nil => cases ht
    | keep hkeep hrest ih =>
        simp at ht
        exact ⟨[], _, by rw [ht, List.nil_append], Tags.nil⟩
    | @drop b s t hb hrest ih =>
        obtain ⟨p, rest, rfl, hp⟩ := ih ht
        exact ⟨o :: (b ++ c :: p), rest, by simp, Tags.cons hb hp⟩
  · rintro ⟨p, rest, rfl, hp⟩
    obtain ⟨rest', rfl, -⟩ := (of_tags hp h).of_keep (Or.inl hx)
    rfl

/-- An element that only enclosed parts follow, and that is not in one itself, is left. -/
theorem getLast?_of_tags {s t front p : List α} {x : α} (h : Stripped o c s t)
    (hs : s = front ++ x :: p) (ho : x ≠ o) (hc : x ≠ c) (hp : Tags o c p)
    (hfront : p = [] ∨ ¬ Opens o c front) : t.getLast? = some x := by
  induction h generalizing front with
  | nil => simp at hs
  | @keep y s t hkeep hrest ih =>
      cases front with
      | nil =>
          simp at hs
          obtain ⟨rfl, rfl⟩ := hs
          rw [hrest.eq_nil_iff.mpr hp]
          rfl
      | cons z front =>
          simp at hs
          have hlast := ih hs.2 (hfront.imp_right fun hopens h => hopens (h.cons z))
          rw [List.getLast?_cons, hlast]
          rfl
  | @drop b s t hb hrest ih =>
      cases front with
      | nil =>
          simp at hs
          exact absurd hs.1.symm ho
      | cons z front =>
          simp at hs
          obtain ⟨rfl, hs⟩ := hs
          rcases List.append_eq_append_iff.mp hs with ⟨m, rfl, hs⟩ | ⟨m, rfl, hs⟩
          · cases m with
            | nil =>
                simp at hs
                exact absurd hs.1.symm hc
            | cons y m =>
                simp at hs
                obtain ⟨rfl, rfl⟩ := hs
                apply ih rfl
                refine hfront.imp_right fun hopens h => hopens ?_
                have hopen := h.append_left (o :: b ++ [c])
                simpa using hopen
          -- in the part that is cut out, an opening mark stands in front of the element
          · cases m with
            | nil =>
                simp at hs
                exact absurd hs.1.symm hc
            | cons y m =>
                simp at hs hb
                rcases hfront with rfl | hopens
                · simp at hs
                · exact absurd ⟨[], front, rfl, hb.1⟩ hopens

/-- Nothing but enclosed parts follows the last element that is left, and it is not in one
itself. -/
theorem exists_of_getLast? {s t : List α} (h : Stripped o c s t) {x : α} (hne : o ≠ c)
    (ht : t.getLast? = some x) :
    ∃ front p, s = front ++ x :: p ∧ Tags o c p ∧ (p = [] ∨ ¬ Opens o c front) := by
  induction h with
  | nil => cases ht
  | @keep y s t hkeep hrest ih =>
      cases ht' : t.getLast? with
      | none =>
          simp at ht'
          subst ht'
          simp at ht
          refine ⟨[], s, by rw [ht, List.nil_append], hrest.eq_nil_iff.mp rfl, Or.inr ?_⟩
          rintro ⟨a, b, heq, -⟩
          simp at heq
      | some z =>
          rw [List.getLast?_cons, ht'] at ht
          simp at ht
          subst ht
          obtain ⟨front, p, rfl, hp, hfront⟩ := ih ht'
          refine ⟨y :: front, p, rfl, hp, ?_⟩
          by_cases hnil : p = []
          case pos => exact Or.inl hnil
          case neg =>
            -- a mark that `y` opened would be closed in the tags behind the element
            refine Or.inr ?_
            rintro ⟨a, b, heq, hb⟩
            have hmem := hp.closing_mem hnil
            cases a with
            | nil =>
                simp at heq
                simp [heq.1, hmem] at hkeep
            | cons w a =>
                simp at heq
                exact hfront.elim hnil fun hopens => hopens ⟨a, b, heq.2, hb⟩
  | @drop b s t hb hrest ih =>
      obtain ⟨front, p, rfl, hp, hfront⟩ := ih ht
      refine ⟨o :: (b ++ c :: front), p, by simp, hp, hfront.imp_right fun hopens h => ?_⟩
      exact hopens (h.behind (a := o :: b) hne)

/-- **The last element** that is left: nothing but enclosed parts follows, and it is not in
one itself. -/
theorem getLast?_iff {s t : List α} (h : Stripped o c s t) {x : α} (ho : x ≠ o) (hc : x ≠ c)
    (hne : o ≠ c) :
    t.getLast? = some x ↔
      ∃ front p, s = front ++ x :: p ∧ Tags o c p ∧ (p = [] ∨ ¬ Opens o c front) := by
  constructor
  · exact h.exists_of_getLast? hne
  · rintro ⟨front, p, hs, hp, hfront⟩
    exact h.getLast?_of_tags hs ho hc hp hfront

end Stripped

end Lib
end InfinityLabs
