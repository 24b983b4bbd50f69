import InfinityLabs.Lib.Links
import InfinityLabs.Lib.ListParts
import Mathlib.Data.List.Chain
import Mathlib.Data.List.Forall2
import Mathlib.Data.List.Nodup
import Mathlib.Logic.Function.Basic

/-!
# Segments that are linked both ways

Places whose links lead forwards and back again, in segments that share no place.  A link from the
last place of a segment to the first place of another, and a link back, breaks no segment.
-/

namespace InfinityLabs
namespace Lib

/-- The link of a place leads to the next, and the link back returns. -/
def Joined (next prev : Nat → Nat) (a b : Nat) : Prop := next a = b ∧ prev b = a

/-- The segments share no place, and each is linked both ways. -/
structure Threaded (next prev : Nat → Nat) (segments : List (List Nat)) : Prop where
  nodup : segments.flatten.Nodup
  chain : ∀ segment ∈ segments, segment.IsChain (Joined next prev)

variable {next prev next' prev' : Nat → Nat} {o left right : Nat} {l a b : List Nat}
  {segments segments' rest : List (List Nat)}

/-! ## Lists of links as chains -/

/-- The links lead through a list to 0 where each place leads to the one behind it. -/
theorem linked_iff_isChain {e : Nat} :
    Linked next o (o :: (l ++ [e])) ↔ (o :: (l ++ [e])).IsChain (fun a b => next a = b) ∧
      (∀ x ∈ o :: (l ++ [e]), x ≠ 0) ∧ next e = 0 := by
  induction l generalizing o with
  | nil =>
      simp only [Linked, List.nil_append, List.isChain_pair, List.forall_mem_cons,
        List.not_mem_nil, false_implies, implies_true, and_true, true_and]
      constructor
      · rintro ⟨ho, rfl, he, hend⟩
        exact ⟨rfl, ⟨ho, he⟩, hend⟩
      · rintro ⟨rfl, ⟨ho, he⟩, hend⟩
        exact ⟨ho, rfl, he, hend⟩
  | cons x l ih =>
      rw [List.cons_append, List.isChain_cons_cons, List.forall_mem_cons]
      constructor
      · rintro ⟨-, ho, hrest⟩
        obtain rfl : next o = x := hrest.1
        obtain ⟨hchain, hne, hend⟩ := ih.mp hrest
        exact ⟨⟨rfl, hchain⟩, ⟨ho, hne⟩, hend⟩
      · rintro ⟨⟨rfl, hchain⟩, ⟨ho, hne⟩, hend⟩
        exact ⟨rfl, ho, ih.mpr ⟨hchain, hne, hend⟩⟩

/-- A chain both ways is a chain forwards, and one backwards. -/
theorem isChain_joined :
    l.IsChain (Joined next prev) ↔ l.IsChain (fun a b => next a = b) ∧
      l.reverse.IsChain (fun a b => prev a = b) := by
  rw [List.isChain_reverse]
  constructor
  · exact fun h => ⟨h.imp fun _ _ hjoined => hjoined.1, h.imp fun _ _ hjoined => hjoined.2⟩
  · rintro ⟨hnext, hprev⟩
    rw [List.isChain_iff_forall_rel_of_append_cons_cons] at hnext hprev ⊢
    exact fun _ _ _ _ hsplit => ⟨hnext hsplit, hprev hsplit⟩

/-- A list that is linked forwards and backwards is a chain both ways between 0 and 0. -/
theorem linked_both_iff {e : Nat} :
    Linked next o (o :: (l ++ [e])) ∧ Linked prev e (o :: (l ++ [e])).reverse ↔
      (o :: (l ++ [e])).IsChain (Joined next prev) ∧ (∀ x ∈ o :: (l ++ [e]), x ≠ 0) ∧
        next e = 0 ∧ prev o = 0 := by
  have hreverse : (o :: (l ++ [e])).reverse = e :: (l.reverse ++ [o]) := by simp
  have hmem : ∀ x, x ∈ e :: (l.reverse ++ [o]) ↔ x ∈ o :: (l ++ [e]) := by
    intro x
    rw [← hreverse, List.mem_reverse]
  rw [isChain_joined, hreverse, linked_iff_isChain, linked_iff_isChain]
  constructor
  · rintro ⟨⟨hnext, hne, hend⟩, hprev, -, hstart⟩
    exact ⟨⟨hnext, hprev⟩, hne, hend, hstart⟩
  · rintro ⟨⟨hnext, hprev⟩, hne, hend, hstart⟩
    exact ⟨⟨hnext, hne, hend⟩, hprev, fun x hx => hne x ((hmem x).mp hx), hstart⟩

/-! ## Segments -/

/-- The pieces of a list that is linked both ways. -/
theorem threaded_of_isChain (hnodup : segments.flatten.Nodup)
    (hchain : segments.flatten.IsChain (Joined next prev)) : Threaded next prev segments := by
  refine ⟨hnodup, ?_⟩
  clear hnodup
  induction segments with
  | nil => exact fun segment hmem => absurd hmem List.not_mem_nil
  | cons a rest ih =>
      rw [List.flatten_cons] at hchain
      exact List.forall_mem_cons.mpr ⟨hchain.left_of_append, ih hchain.right_of_append⟩

/-- Segments without a common place. -/
theorem Threaded.append (h : Threaded next prev segments) (h' : Threaded next prev segments')
    (hdisjoint : segments.flatten.Disjoint segments'.flatten) :
    Threaded next prev (segments ++ segments') := by
  refine ⟨?_, fun segment hmem => ?_⟩
  · rw [List.flatten_append]
    exact h.nodup.append h'.nodup hdisjoint
  · rcases List.mem_append.mp hmem with hmem | hmem
    · exact h.chain segment hmem
    · exact h'.chain segment hmem

/-- The first and the last places of segments. -/
structure Ends (segments : List (List Nat)) (firsts lasts : List Nat) : Prop where
  firsts : List.Forall₂ (fun segment a => a ∈ segment.head?) segments firsts
  lasts : List.Forall₂ (fun segment a => a ∈ segment.getLast?) segments lasts

/-- One place of each segment is a part of their places. -/
theorem sublist_flatten {ends : List Nat}
    (h : List.Forall₂ (fun segment a => [a].Sublist segment) segments ends) :
    ends.Sublist segments.flatten := by
  induction h with
  | nil => exact .slnil
  | cons hsegment _ ih => exact hsegment.append ih

/-- Each end is that of a segment. -/
theorem exists_of_forall₂ {R : List Nat → Nat → Prop} {ends : List Nat} {x : Nat}
    (h : List.Forall₂ R segments ends) (hx : x ∈ ends) : ∃ segment ∈ segments, R segment x := by
  induction h with
  | nil => exact absurd hx List.not_mem_nil
  | cons hsegment _ ih =>
      rcases List.mem_cons.mp hx with rfl | hx
      · exact ⟨_, List.mem_cons_self, hsegment⟩
      · obtain ⟨segment, hmem, hend⟩ := ih hx
        exact ⟨segment, List.mem_cons_of_mem _ hmem, hend⟩

variable {firsts lasts : List Nat}

theorem Ends.nodup_firsts (h : Ends segments firsts lasts) (hnodup : segments.flatten.Nodup) :
    firsts.Nodup :=
  hnodup.sublist (sublist_flatten (h.firsts.imp fun _ _ hfirst =>
    List.singleton_sublist.mpr (List.mem_of_mem_head? hfirst)))

theorem Ends.nodup_lasts (h : Ends segments firsts lasts) (hnodup : segments.flatten.Nodup) :
    lasts.Nodup :=
  hnodup.sublist (sublist_flatten (h.lasts.imp fun _ _ hlast =>
    List.singleton_sublist.mpr (List.mem_of_getLast? hlast)))

/-- A place comes in one segment. -/
theorem eq_of_mem_of_mem (hnodup : segments.flatten.Nodup) {x : Nat} (ha : a ∈ segments)
    (hb : b ∈ segments) (hxa : x ∈ a) (hxb : x ∈ b) : a = b := by
  by_contra hne
  have : Std.Symm (@List.Disjoint Nat) := ⟨fun _ _ h _ ha hb => h hb ha⟩
  exact (List.nodup_flatten.mp hnodup).2.forall ha hb hne hxa hxb

/-! ## Linking -/

/-- Writes to a link and to a link back keep a chain, where no place of it was linked so. -/
theorem isChain_update (h : l.IsChain (Joined next prev)) (hleft : left ∉ l.dropLast)
    (hright : right ∉ l.tail) :
    l.IsChain (Joined (Function.update next left right) (Function.update prev right left)) := by
  induction l with
  | nil => exact .nil
  | cons a l ih =>
      cases l with
      | nil => exact .singleton a
      | cons b l =>
          rw [List.isChain_cons_cons] at h ⊢
          rw [List.dropLast_cons_cons, List.mem_cons, not_or] at hleft
          rw [List.tail_cons, List.mem_cons, not_or] at hright
          refine ⟨⟨?_, ?_⟩, ih h.2 hleft.2 hright.2⟩
          · rw [Function.update_of_ne (Ne.symm hleft.1), h.1.1]
          · rw [Function.update_of_ne (Ne.symm hright.1), h.1.2]

/-- The last place of a segment is before no other of it. -/
theorem not_mem_dropLast (hnodup : l.Nodup) (hlast : left ∈ l.getLast?) : left ∉ l.dropLast := by
  obtain ⟨l', rfl⟩ := List.getLast?_eq_some_iff.mp hlast
  rw [List.dropLast_concat]
  exact fun hmem => List.disjoint_of_nodup_append hnodup hmem (List.mem_singleton_self left)

/-- The first place of a segment is behind no other of it. -/
theorem not_mem_tail (hnodup : l.Nodup) (hfirst : right ∈ l.head?) : right ∉ l.tail := by
  obtain ⟨l', rfl⟩ := List.head?_eq_some_iff.mp hfirst
  exact (List.nodup_cons.mp hnodup).1

/-- A link from the last place of a segment to the first of one breaks none of the segments. -/
theorem Threaded.link (h : Threaded next prev segments) (hends : Ends segments firsts lasts)
    (hleft : left ∈ lasts) (hright : right ∈ firsts) :
    Threaded (Function.update next left right) (Function.update prev right left) segments := by
  refine ⟨h.nodup, fun segment hmem => isChain_update (h.chain segment hmem) ?_ ?_⟩
  · obtain ⟨other, hother, hlast⟩ := exists_of_forall₂ hends.lasts hleft
    intro hinside
    obtain rfl := eq_of_mem_of_mem h.nodup hmem hother (List.dropLast_subset _ hinside)
      (List.mem_of_getLast? hlast)
    exact not_mem_dropLast ((List.nodup_flatten.mp h.nodup).1 segment hmem) hlast hinside
  · obtain ⟨other, hother, hfirst⟩ := exists_of_forall₂ hends.firsts hright
    intro hinside
    obtain rfl := eq_of_mem_of_mem h.nodup hmem hother (List.mem_of_mem_tail hinside)
      (List.mem_of_mem_head? hfirst)
    exact not_mem_tail ((List.nodup_flatten.mp h.nodup).1 segment hmem) hfirst hinside

/-- Places that are linked stay so where another link is written. -/
theorem Joined.update {x y : Nat} (h : Joined next prev x y) (hleft : x ≠ left)
    (hright : y ≠ right) :
    Joined (Function.update next left right) (Function.update prev right left) x y :=
  ⟨(Function.update_of_ne hleft ..).trans h.1, (Function.update_of_ne hright ..).trans h.2⟩

theorem joined_update_self (next prev : Nat → Nat) (left right : Nat) :
    Joined (Function.update next left right) (Function.update prev right left) left right :=
  ⟨Function.update_self .., Function.update_self ..⟩

/-- The first place of a segment comes first in what begins with it. -/
theorem head?_flatten_cons (hfirst : right ∈ b.head?) :
    right ∈ (b :: rest).flatten.head? := by
  obtain ⟨b', rfl⟩ := List.head?_eq_some_iff.mp hfirst
  exact rfl

/-- Segments are one where the last place of the one is linked to the first of the other. -/
theorem isChain_flatten_cons (ha : a.IsChain (Joined next prev))
    (hrest : (b :: rest).flatten.IsChain (Joined next prev)) (hlast : left ∈ a.getLast?)
    (hfirst : right ∈ b.head?) (hjoined : Joined next prev left right) :
    (a :: b :: rest).flatten.IsChain (Joined next prev) := by
  rw [List.flatten_cons]
  refine ha.append hrest fun x hx y hy => ?_
  obtain rfl := Option.mem_unique hx hlast
  obtain rfl := Option.mem_unique hy (head?_flatten_cons hfirst)
  exact hjoined

/-- The last place before a cut is linked to the first behind it. -/
theorem joined_of_flatten (h : (a :: b :: rest).flatten.IsChain (Joined next prev))
    (hlast : left ∈ a.getLast?) (hfirst : right ∈ b.head?) : Joined next prev left right := by
  rw [List.flatten_cons] at h
  exact (List.isChain_append.mp h).2.2 left hlast right (head?_flatten_cons hfirst)

end Lib
end InfinityLabs
