import InfinityLabs.Lib.Links
import InfinityLabs.Lib.ListParts
import Mathlib.Logic.Function.Basic
import Mathlib.Tactic.Common

/-!
# Merge sort of a linked list

`projects/sorting/test/merge_twosll.c`.  A node is a place in memory, and place 0 is `NULL`.  The
data of the nodes does not change; the links do, so a function takes them and returns them as
it leaves them.  The functions are cut off after a number of rounds: with enough of them they
return.

`MergeSort` cuts the list where the slow pointer stops, behind its first half, and relinks the
nodes to what `List.mergeSort` makes of them.
-/

namespace InfinityLabs
namespace Sorting
namespace ListMergeSort

open Lib

/-- `node->next`, for a node. -/
def nextOf (next : Nat → Nat) (node : Nat) : Option Nat :=
  if node = 0 then none else some (next node)

/-- The loop of `Split`: where the slow pointer stops. -/
def splitLoop (next : Nat → Nat) : Nat → Nat → Nat → Option Nat
  | 0, _, _ => none
  | fuel + 1, slow, fast =>
      if fast ≠ 0 ∧ next fast ≠ 0 then do
        let slow ← nextOf next slow
        let fast ← nextOf next (next fast)
        splitLoop next fuel slow fast
      else some slow

/-- `Split`: the second half, and the links. -/
def split (fuel : Nat) (next : Nat → Nat) (src : Nat) : Option (Nat × (Nat → Nat)) := do
  let fast ← nextOf next src
  let slow ← splitLoop next fuel src fast
  let tail ← nextOf next slow
  pure (tail, Function.update next slow 0)

section

variable (data : Nat → Int)

/-- `Merge`: the merged list, and the links. -/
def merge : Nat → (Nat → Nat) → Nat → Nat → Option (Nat × (Nat → Nat))
  | 0, _, _, _ => none
  | fuel + 1, next, a, b =>
      if a = 0 then some (b, next)
      else if b = 0 then some (a, next)
      else if data a ≤ data b then do
        let (rest, next) ← merge fuel next (next a) b
        pure (a, Function.update next a rest)
      else do
        let (rest, next) ← merge fuel next a (next b)
        pure (b, Function.update next b rest)

/-- `MergeSort`: the sorted list, and the links. -/
def mergeSort : Nat → (Nat → Nat) → Nat → Option (Nat × (Nat → Nat))
  | 0, _, _ => none
  | fuel + 1, next, head =>
      if head = 0 ∨ next head = 0 then some (head, next)
      else do
        let (tail, next) ← split fuel next head
        let (head, next) ← mergeSort fuel next head
        let (tail, next) ← mergeSort fuel next tail
        merge data fuel next head tail

/-- The test in `Merge`. -/
def le (a b : Nat) : Bool :=
  decide (data a ≤ data b)

end

variable {next : Nat → Nat}

theorem nextOf_of_ne_zero {node : Nat} (h : node ≠ 0) : nextOf next node = some (next node) :=
  if_neg h

/-! ## Splitting -/

/-- The slow pointer stops half as far as the list of the fast one is long. -/
theorem splitLoop_eq (fuel : Nat) {slow fast : Nat} {ls lf : List Nat} (hs : Linked next slow ls)
    (hf : Linked next fast lf) (hlt : lf.length / 2 < ls.length) (hfuel : lf.length / 2 < fuel) :
    ∃ front x back, ls = front ++ x :: back ∧ front.length = lf.length / 2 ∧
      splitLoop next fuel slow fast = some x := by
  induction fuel generalizing slow fast ls lf with
  | zero => omega
  | succ fuel ih =>
      cases ls with
      | nil => simp at hlt
      | cons s ls =>
          obtain ⟨rfl, hne, hs⟩ := hs
          match lf, hf with
          | [], hf =>
              have hfast : fast = 0 := hf
              exact ⟨[], slow, ls, rfl, rfl, by simp [splitLoop, hfast]⟩
          | [y], ⟨hfast, hy, hend⟩ =>
              have hnext : next fast = 0 := hfast ▸ hend
              exact ⟨[], slow, ls, rfl, by simp, by simp [splitLoop, hnext]⟩
          | y :: z :: lf, ⟨hfast, hy, hz, hzne, hf⟩ =>
              subst hfast hz
              simp only [List.length_cons] at hlt hfuel ⊢
              obtain ⟨front, x, back, rfl, hlength, hloop⟩ := ih hs hf (by omega) (by omega)
              refine ⟨slow :: front, x, back, rfl, ?_, ?_⟩
              · rw [List.length_cons, hlength]
                omega
              · simp [splitLoop, hy, hzne, nextOf_of_ne_zero hne, nextOf_of_ne_zero hzne, hloop]

/-- **Splitting** cuts a list of two or more nodes behind its first half. -/
theorem split_eq (fuel : Nat) {src : Nat} {l : List Nat} (hl : Linked next src l)
    (hlength : 2 ≤ l.length) (hfuel : l.length ≤ fuel) :
    ∃ tail next', split fuel next src = some (tail, next') ∧
      Linked next' src (l.take ((l.length + 1) / 2)) ∧
      Linked next' tail (l.drop ((l.length + 1) / 2)) ∧ ∀ y, y ∉ l → next' y = next y := by
  match l, hl with
  | a :: l, ⟨hsrc, hne, hrest⟩ =>
      subst hsrc
      simp only [List.length_cons] at hlength hfuel ⊢
      have hwhole : Linked next src (src :: l) := ⟨rfl, hne, hrest⟩
      obtain ⟨front, x, back, hsplit, hfront, hloop⟩ :=
        splitLoop_eq fuel hwhole hrest (by rw [List.length_cons]; omega) (by omega)
      have hx : x ≠ 0 := hwhole.ne_zero x (by simp [hsplit])
      have hnodup := hwhole.nodup
      rw [hsplit] at hwhole hnodup ⊢
      have hhalf : (l.length + 1 + 1) / 2 = (front ++ [x]).length := by
        simp
        omega
      have hcut : front ++ x :: back = (front ++ [x]) ++ back := by simp
      have hothers : ∀ y, y ≠ x → Function.update next x 0 y = next y := fun y hy =>
        Function.update_of_ne hy 0 next
      have hsame : ∀ y ∈ front ++ back, Function.update next x 0 y = next y := fun y hy =>
        hothers y (ne_of_mem_split hnodup hy)
      refine ⟨next x, Function.update next x 0, ?_, ?_, ?_, fun y hy => hothers y ?_⟩
      · simp [split, nextOf_of_ne_zero hne, hloop, nextOf_of_ne_zero hx]
      · rw [hhalf, hcut, List.take_left]
        exact hwhole.replace (fun y hy => hsame y (List.mem_append_left back hy))
          ⟨rfl, hx, Function.update_self x 0 next⟩
      · rw [hhalf, hcut, List.drop_left]
        exact hwhole.suffix.2.2.congr fun y hy => hsame y (List.mem_append_right front hy)
      · rintro rfl
        simp at hy

/-! ## Merging -/

variable {data : Nat → Int}

/-- A node is linked in front of a list that it is not in. -/
theorem linked_update {a rest : Nat} {l : List Nat} (hl : Linked next rest l) (ha : a ≠ 0)
    (hnot : a ∉ l) : Linked (Function.update next a rest) a (a :: l) := by
  refine ⟨rfl, ha, ?_⟩
  rw [Function.update_self]
  refine hl.congr fun y hy => Function.update_of_ne ?_ rest next
  rintro rfl
  exact hnot hy

/-- **Merging** relinks the nodes of both lists, and no others. -/
theorem merge_eq (fuel : Nat) {a b : Nat} {la lb : List Nat} (ha : Linked next a la)
    (hb : Linked next b lb) (hdisjoint : ∀ x ∈ la, x ∉ lb)
    (hfuel : la.length + lb.length < fuel) :
    ∃ o next', merge data fuel next a b = some (o, next') ∧
      Linked next' o (List.merge la lb (le data)) ∧
      ∀ y, y ∉ la → y ∉ lb → next' y = next y := by
  induction fuel generalizing a b la lb with
  | zero => omega
  | succ fuel ih =>
      have hwholeA := ha
      have hwholeB := hb
      match la, ha, lb, hb with
      | [], ha, lb, hb =>
          have hzero : a = 0 := ha
          exact ⟨b, next, by simp [merge, hzero], by simpa using hb, fun _ _ _ => rfl⟩
      | x :: la, ⟨hax, hx, hla⟩, [], hb =>
          have hzero : b = 0 := hb
          exact ⟨a, next, by simp [merge, hax, hx, hzero], by simpa using hwholeA,
            fun _ _ _ => rfl⟩
      | x :: la, ⟨hax, hx, hla⟩, y :: lb, ⟨hby, hy, hlb⟩ =>
          subst hax hby
          simp only [List.length_cons] at hfuel
          by_cases hle : data a ≤ data b
          -- the first node is the one of the first list
          case pos =>
            obtain ⟨o, next', hmerge, hlinked, hframe⟩ :=
              ih hla hwholeB (fun x hx => hdisjoint x (List.mem_cons_of_mem a hx))
                (by rw [List.length_cons]; omega)
            have hnot : a ∉ List.merge la (b :: lb) (le data) := by
              rw [List.mem_merge]
              have hnodup := hwholeA.nodup
              have hother := hdisjoint a List.mem_cons_self
              simp_all
            refine ⟨a, Function.update next' a o, ?_, ?_, ?_⟩
            · simp [merge, hx, hy, hle, hmerge]
            · rw [List.cons_merge_cons_pos _ _ _ (by simp [le, hle])]
              exact linked_update hlinked hx hnot
            · intro z hza hzb
              simp at hza
              rw [Function.update_of_ne hza.1]
              exact hframe z hza.2 hzb
          case neg =>
            obtain ⟨o, next', hmerge, hlinked, hframe⟩ :=
              ih hwholeA hlb (fun x hx hmem => hdisjoint x hx (List.mem_cons_of_mem b hmem))
                (by rw [List.length_cons]; omega)
            have hnot : b ∉ List.merge (a :: la) lb (le data) := by
              rw [List.mem_merge]
              have hnodup := hwholeB.nodup
              have hother := fun hmem => hdisjoint b hmem List.mem_cons_self
              simp_all
            refine ⟨b, Function.update next' b o, ?_, ?_, ?_⟩
            · simp [merge, hx, hy, hle, hmerge]
            · rw [List.cons_merge_cons_neg _ _ _ (by simp [le, hle])]
              exact linked_update hlinked hy hnot
            · intro z hza hzb
              simp at hzb
              rw [Function.update_of_ne hzb.1]
              exact hframe z hza hzb.2

/-! ## Sorting -/

/-- One step of `List.mergeSort`: the halves are cut where `Split` cuts. -/
theorem mergeSort_halves {l : List Nat} (hlength : 2 ≤ l.length) :
    l.mergeSort (le data) =
      List.merge ((l.take ((l.length + 1) / 2)).mergeSort (le data))
        ((l.drop ((l.length + 1) / 2)).mergeSort (le data)) (le data) := by
  match l, hlength with
  | a :: b :: l, _ =>
      rw [List.mergeSort]
      simp

theorem mergeSort_short {l : List Nat} (hlength : l.length < 2) : l.mergeSort (le data) = l := by
  match l, hlength with
  | [], _ => simp
  | [x], _ => simp

/-- `MergeSort` relinks the nodes to the sorted list, and no others. -/
theorem mergeSort_eq (data : Nat → Int) {fuel head : Nat} {l : List Nat} (hl : Linked next head l)
    (hfuel : l.length + 1 < fuel) :
    ∃ o next', mergeSort data fuel next head = some (o, next') ∧
      Linked next' o (l.mergeSort (le data)) ∧ ∀ y, y ∉ l → next' y = next y := by
  induction fuel generalizing next head l with
  | zero => omega
  | succ fuel ih =>
      by_cases hshort : l.length < 2
      case pos =>
        have hstop : head = 0 ∨ next head = 0 := by
          match l, hl with
          | [], hl => exact Or.inl hl
          | [x], ⟨hx, _, hend⟩ => exact Or.inr (hx ▸ hend)
        exact ⟨head, next, by simp [mergeSort, hstop], by rwa [mergeSort_short hshort],
          fun _ _ => rfl⟩
      case neg =>
        have hgo : ¬ (head = 0 ∨ next head = 0) := by
          match l, hl with
          | [], _ => simp at hshort
          | [x], _ => simp at hshort
          | x :: y :: l, ⟨hx, hxne, hy, hyne, _⟩ =>
              subst hx hy
              simp [hxne, hyne]
        obtain ⟨tail, next₁, hsplit, hfirst, hsecond, hframe₁⟩ :=
          split_eq fuel hl (by omega) (by omega)
        have hnodup := hl.nodup
        have hlengthA : (l.take ((l.length + 1) / 2)).length = (l.length + 1) / 2 :=
          List.length_take_of_le (by omega)
        have hlengthB : (l.drop ((l.length + 1) / 2)).length = l.length - (l.length + 1) / 2 :=
          List.length_drop
        rw [mergeSort_halves (by omega)]
        have hboth := List.take_append_drop ((l.length + 1) / 2) l
        generalize l.take ((l.length + 1) / 2) = la at *
        generalize l.drop ((l.length + 1) / 2) = lb at *
        subst hboth
        have hdisjoint : ∀ x ∈ la, x ∉ lb := fun x hx hx' =>
          (List.nodup_append.mp hnodup).2.2 x hx x hx' rfl
        -- the halves are sorted one after the other, and each keeps the links of the other
        obtain ⟨o₁, next₂, hsort₁, hlinked₁, hframe₂⟩ := ih hfirst (by omega)
        have hsecond₂ : Linked next₂ tail lb :=
          hsecond.congr fun y hy => hframe₂ y fun hy' => hdisjoint y hy' hy
        obtain ⟨o₂, next₃, hsort₂, hlinked₂, hframe₃⟩ := ih hsecond₂ (by omega)
        have hfirst₃ : Linked next₃ o₁ (la.mergeSort (le data)) :=
          hlinked₁.congr fun y hy => hframe₃ y (hdisjoint y (List.mem_mergeSort.mp hy))
        obtain ⟨o, next₄, hmerge, hlinked, hframe₄⟩ :=
          merge_eq fuel hfirst₃ hlinked₂
            (fun x hx hx' => hdisjoint x (List.mem_mergeSort.mp hx) (List.mem_mergeSort.mp hx'))
            (by simp only [List.length_mergeSort]; omega)
        refine ⟨o, next₄, ?_, hlinked, fun y hy => ?_⟩
        · simp [mergeSort, hgo, hsplit, hsort₁, hsort₂, hmerge]
        · have hya : y ∉ la := fun h => hy (List.mem_append_left lb h)
          have hyb : y ∉ lb := fun h => hy (List.mem_append_right la h)
          calc next₄ y = next₃ y := hframe₄ y (by simpa using hya) (by simpa using hyb)
            _ = next₂ y := hframe₃ y hyb
            _ = next₁ y := hframe₂ y hya
            _ = next y := hframe₁ y hy

theorem le_trans (a b c : Nat) (hab : le data a b = true) (hbc : le data b c = true) :
    le data a c = true := by
  simp [le] at *
  omega

theorem le_total (a b : Nat) : (le data a b || le data b a) = true := by
  simp [le]
  omega

/-- The sorted list keeps the order of the nodes of one value. -/
theorem filter_mergeSort (l : List Nat) (v : Int) :
    (l.mergeSort (le data)).filter (fun a => data a == v) = l.filter fun a => data a == v := by
  have hequal : (l.filter fun a => data a == v).Pairwise fun a b => le data a b = true := by
    refine List.pairwise_iff_forall_sublist.mpr fun {a b} hab => ?_
    have ha := hab.subset List.mem_cons_self
    have hb := hab.subset (List.mem_cons_of_mem a List.mem_cons_self)
    simp at ha hb
    simp [le, ha.2, hb.2]
  -- the nodes of the value stay in their order, and there are no others
  have hsublist := (List.sublist_mergeSort le_trans le_total hequal List.filter_sublist).filter
    fun a => data a == v
  rw [List.filter_filter] at hsublist
  simp only [Bool.and_self] at hsublist
  have hperm := (List.mergeSort_perm l (le data)).filter fun a => data a == v
  exact (hsublist.eq_of_length hperm.length_eq.symm).symm

/-- **Merge sort of a linked list** returns: the same nodes are linked, by value, and those of
one value in their order. -/
theorem mergeSort_sorts (data : Nat → Int) {fuel head : Nat} {l : List Nat}
    (hl : Linked next head l) (hfuel : l.length + 1 < fuel) :
    ∃ o next' sorted, mergeSort data fuel next head = some (o, next') ∧
      Linked next' o sorted ∧
      sorted.Perm l ∧ sorted.Pairwise (fun a b => data a ≤ data b) ∧
      ∀ v, sorted.filter (fun a => data a == v) = l.filter fun a => data a == v := by
  obtain ⟨o, next', hsort, hlinked, -⟩ := mergeSort_eq data hl hfuel
  have hpairwise : (l.mergeSort (le data)).Pairwise fun a b => le data a b = true :=
    List.pairwise_mergeSort le_trans le_total l
  exact ⟨o, next', _, hsort, hlinked, List.mergeSort_perm l _,
    hpairwise.imp fun h => of_decide_eq_true h, filter_mergeSort l⟩

/-- The links of three nodes. -/
def sampleNext (node : Nat) : Nat :=
  if node = 1 then 2 else if node = 2 then 3 else 0

/-- The data of three nodes, the last of which is equal to the first. -/
def sampleData (node : Nat) : Int :=
  if node = 2 then 3 else 5

/-- Three nodes, two of them of one value. -/
theorem mergeSort_sorts_sample :
    ∃ o next' sorted, mergeSort sampleData 5 sampleNext 1 = some (o, next') ∧
      Linked next' o sorted ∧ sorted.Perm [1, 2, 3] ∧
      sorted.Pairwise (fun a b => sampleData a ≤ sampleData b) ∧
      ∀ v, sorted.filter (fun a => sampleData a == v) =
        [1, 2, 3].filter fun a => sampleData a == v := by
  have hlinked : Linked sampleNext 1 [1, 2, 3] :=
    ⟨rfl, by decide, rfl, by decide, rfl, by decide, rfl⟩
  exact mergeSort_sorts sampleData hlinked (by decide)

end ListMergeSort
end Sorting
end InfinityLabs
