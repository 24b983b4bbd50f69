import InfinityLabs.Ds.HasLoop

/-!
# Turning lists around

`Flip` and `FindIntersection` of `ds/test/ex_linkedlist.c`, and `FlipNode` of `recursion.c`.

`Flip` does not ask whether the structure ends.  Where it runs into a cycle, `Flip` goes once
around it, which turns it around, and then back along the way it came, which is restored; it
returns the head that it was given.

The memory is told by the `next` fields of the nodes; an access to an address without a node has
no result.
-/

namespace InfinityLabs
namespace Ds

open Lib

/-- The `next` fields of the nodes in memory. -/
abbrev NodeMap := Nat → Option Nat

namespace NodeMap

variable (m : NodeMap)

/-- `node->next`. -/
def nextOf (node : Nat) : Except Fault Nat :=
  match m node with
  | none => .error .outOfBounds
  | some next => .ok next

/-- `node->next = next`. -/
def setNext (node next : Nat) : Except Fault NodeMap :=
  match m node with
  | none => .error .outOfBounds
  | some _ => .ok (Function.update m node (some next))

end NodeMap

/-! ## The functions -/

/-- The loop of `Flip`. -/
def flipLoop : Nat → NodeMap → Nat → Nat → Except Fault (NodeMap × Nat)
  | 0, _, _, _ => .error .outOfFuel
  | fuel + 1, m, curr, prev => do
      if curr = 0 then pure (m, prev)
      else
        let next ← m.nextOf curr
        let m ← m.setNext curr prev
        flipLoop fuel m next curr

/-- `Flip`. -/
def flip (fuel : Nat) (m : NodeMap) (head : Nat) : Except Fault (NodeMap × Nat) :=
  flipLoop fuel m head 0

/-- `FlipNode`. -/
def flipNode : Nat → NodeMap → Nat → Except Fault (NodeMap × Nat)
  | 0, _, _ => .error .outOfFuel
  | fuel + 1, m, head => do
      if head = 0 then pure (m, head)
      else if (← m.nextOf head) = 0 then pure (m, head)
      else
        let (m, newHead) ← flipNode fuel m (← m.nextOf head)
        let m ← m.setNext (← m.nextOf head) head
        let m ← m.setNext head 0
        pure (m, newHead)

/-- The inner loop of `FindIntersection`: whether it comes to `outer`. -/
def findInner (m : NodeMap) (outer : Nat) : Nat → Nat → Except Fault Bool
  | 0, _ => .error .outOfFuel
  | fuel + 1, inner => do
      if inner = 0 then pure false
      else if inner = outer then pure true
      else findInner m outer fuel (← m.nextOf inner)

/-- The outer loop of `FindIntersection`; the inner one returns a node that is `outer`. -/
def findOuter (m : NodeMap) (head1 fuel : Nat) : Nat → Nat → Except Fault Nat
  | 0, _ => .error .outOfFuel
  | rounds + 1, outer => do
      if outer = 0 then pure 0
      else if ← findInner m outer fuel head1 then pure outer
      else findOuter m head1 fuel rounds (← m.nextOf outer)

/-- `FindIntersection`. -/
def findIntersection (fuel : Nat) (m : NodeMap) (head1 head2 : Nat) : Except Fault Nat :=
  findOuter m head1 fuel fuel head2

/-! ## Ways through the memory -/

/-- The links lead from `o` through the nodes of the list to `e`. -/
def Leads (m : NodeMap) : Nat → List Nat → Nat → Prop
  | o, [], e => o = e
  | o, x :: l, e => o = x ∧ x ≠ 0 ∧ ∃ y, m x = some y ∧ Leads m y l e

variable {m m' : NodeMap} {o a x e : Nat} {l l₁ l₂ : List Nat}

/-- A way depends on the links of its nodes. -/
theorem Leads.congr (h : Leads m o l e) (hsame : ∀ x ∈ l, m' x = m x) : Leads m' o l e := by
  induction l generalizing o with
  | nil => exact h
  | cons x l ih =>
      obtain ⟨hx, hne, y, hy, hl⟩ := h
      refine ⟨hx, hne, y, ?_, ih hl fun z hz => hsame z (List.mem_cons_of_mem x hz)⟩
      rw [hsame x List.mem_cons_self, hy]

/-- A way in two parts. -/
theorem leads_append : Leads m o (l₁ ++ l₂) e ↔ ∃ a, Leads m o l₁ a ∧ Leads m a l₂ e := by
  induction l₁ generalizing o with
  | nil => simp [Leads]
  | cons x l₁ ih =>
      constructor
      · rintro ⟨hx, hne, y, hy, hl⟩
        obtain ⟨a, hfirst, hsecond⟩ := ih.mp hl
        exact ⟨a, ⟨hx, hne, y, hy, hfirst⟩, hsecond⟩
      · rintro ⟨a, ⟨hx, hne, y, hy, hfirst⟩, hsecond⟩
        exact ⟨hx, hne, y, hy, ih.mpr ⟨a, hfirst, hsecond⟩⟩

/-- Where a way begins. -/
theorem Leads.eq_headD (h : Leads m o l e) : o = l.headD e := by
  cases l with
  | nil => exact h
  | cons x l => exact h.1

/-- The nodes of a way have links. -/
theorem Leads.isSome (h : Leads m o l e) : ∀ x ∈ l, (m x).isSome := by
  induction l generalizing o with
  | nil => simp
  | cons x l ih =>
      obtain ⟨-, -, y, hy, hl⟩ := h
      intro z hz
      rcases List.mem_cons.mp hz with rfl | hz
      · rw [hy]
        rfl
      · exact ih hl z hz

/-- From one place one way leads to `NULL`. -/
theorem Leads.unique (h₁ : Leads m o l₁ 0) (h₂ : Leads m o l₂ 0) : l₁ = l₂ := by
  induction l₁ generalizing o l₂ with
  | nil =>
      cases l₂ with
      | nil => rfl
      | cons x l₂ => exact absurd (h₂.1.symm.trans h₁) h₂.2.1
  | cons x l₁ ih =>
      obtain ⟨rfl, hne, y, hy, hl₁⟩ := h₁
      cases l₂ with
      | nil => exact absurd h₂ hne
      | cons z l₂ =>
          obtain ⟨rfl, -, y', hy', hl₂⟩ := h₂
          obtain rfl := Option.some.inj (hy.symm.trans hy')
          rw [ih hl₁ hl₂]

/-- A way to `NULL` comes to no node twice. -/
theorem Leads.nodup (h : Leads m o l 0) : l.Nodup := by
  induction l generalizing o with
  | nil => exact List.nodup_nil
  | cons x l ih =>
      obtain ⟨rfl, hne, y, hy, hl⟩ := h
      refine List.nodup_cons.mpr ⟨fun hmem => ?_, ih hl⟩
      -- the way from a second visit is the whole way, and shorter
      obtain ⟨l₁, l₂, rfl⟩ := List.append_of_mem hmem
      obtain ⟨a, -, hsecond⟩ := leads_append.mp hl
      obtain rfl := hsecond.eq_headD
      have hwhole : Leads m a (a :: (l₁ ++ a :: l₂)) 0 := ⟨rfl, hne, y, hy, hl⟩
      have hlength := congrArg List.length (hsecond.unique hwhole)
      simp only [List.length_cons, List.length_append] at hlength
      omega

/-- Memories with the same way have the same links on it. -/
theorem Leads.eq_on (h : Leads m o l e) (h' : Leads m' o l e) : ∀ x ∈ l, m x = m' x := by
  induction l generalizing o with
  | nil => simp
  | cons x l ih =>
      obtain ⟨rfl, -, y, hy, hl⟩ := h
      obtain ⟨-, -, y', hy', hl'⟩ := h'
      obtain rfl : y = y' := hl.eq_headD.trans hl'.eq_headD.symm
      intro z hz
      rcases List.mem_cons.mp hz with rfl | hz
      · rw [hy, hy']
      · exact ih hl hl' z hz

/-! ## Turning a way around -/

theorem nextOf_eq {b : Nat} (h : m a = some b) : m.nextOf a = .ok b := by
  rw [NodeMap.nextOf, h]

theorem setNext_eq (h : (m a).isSome) (b : Nat) :
    m.setNext a b = .ok (Function.update m a (some b)) := by
  obtain ⟨c, hc⟩ := Option.isSome_iff_exists.mp h
  rw [NodeMap.setNext, hc]

/-- The loop goes along a way and leaves it turned around. -/
theorem flipLoop_leads (prev : Nat) (h : Leads m o l e) (hnodup : l.Nodup) :
    ∃ m', (∀ fuel, flipLoop (fuel + l.length) m o prev = flipLoop fuel m' e (l.getLastD prev)) ∧
      Leads m' (l.getLastD prev) l.reverse prev ∧ ∀ a, a ∉ l → m' a = m a := by
  induction l generalizing m o prev with
  | nil =>
      obtain rfl : o = e := h
      exact ⟨m, fun _ => rfl, rfl, fun _ _ => rfl⟩
  | cons x l ih =>
      obtain ⟨rfl, hne, y, hy, hl⟩ := h
      obtain ⟨hfresh, hnodup⟩ := List.nodup_cons.mp hnodup
      have hset : m.setNext o prev = .ok (Function.update m o (some prev)) :=
        setNext_eq (by rw [hy]; rfl) prev
      have hothers : ∀ z, z ≠ o → Function.update m o (some prev) z = m z := fun z hz =>
        Function.update_of_ne hz _ _
      have hrest : Leads (Function.update m o (some prev)) y l e :=
        hl.congr fun z hz => hothers z fun hzo => hfresh (hzo ▸ hz)
      obtain ⟨m', hloop, hturned, hframe⟩ := ih o hrest hnodup
      refine ⟨m', fun fuel => ?_, ?_, fun a ha => ?_⟩
      · rw [List.length_cons, ← Nat.add_assoc, flipLoop, if_neg hne, nextOf_eq hy]
        simp only [ok_bind, hset]
        rw [hloop, List.getLastD_cons]
      · rw [List.getLastD_cons, List.reverse_cons]
        refine leads_append.mpr ⟨o, hturned, rfl, hne, prev, ?_, rfl⟩
        rw [hframe o hfresh, Function.update_self]
      · rw [List.mem_cons, not_or] at ha
        rw [hframe a ha.2, hothers a ha.1]

/-- The recursion turns a way to `NULL` around. -/
theorem flipNode_leads (h : Leads m o l 0) {fuel : Nat} (hfuel : l.length < fuel) :
    ∃ m', flipNode fuel m o = .ok (m', l.getLastD 0) ∧
      Leads m' (l.getLastD 0) l.reverse 0 ∧ ∀ a, a ∉ l → m' a = m a := by
  induction l generalizing o fuel with
  | nil =>
      obtain rfl : o = 0 := h
      obtain ⟨fuel, rfl⟩ := Nat.exists_eq_add_of_lt hfuel
      exact ⟨m, by rw [flipNode, if_pos rfl]; rfl, rfl, fun _ _ => rfl⟩
  | cons x l ih =>
      have hnodup := h.nodup
      obtain ⟨rfl, hne, y, hy, hl⟩ := h
      obtain ⟨fuel, rfl⟩ : ∃ k, fuel = k + 1 := ⟨fuel - 1, by omega⟩
      rw [List.length_cons] at hfuel
      rw [flipNode, if_neg hne, nextOf_eq hy]
      simp only [ok_bind]
      cases l with
      | nil =>
          obtain rfl : y = 0 := hl
          exact ⟨m, by rw [if_pos rfl]; rfl, ⟨rfl, hne, 0, hy, rfl⟩, fun _ _ => rfl⟩
      | cons z l =>
          obtain rfl : y = z := hl.1
          obtain ⟨hfresh, -⟩ := List.nodup_cons.mp hnodup
          obtain ⟨m₁, hflip, hturned, hframe⟩ := ih hl (show (y :: l).length < fuel by omega)
          rw [if_neg hl.2.1, hflip]
          have hyo : y ≠ o := fun heq => hfresh (heq ▸ List.mem_cons_self)
          have ho : m₁ o = some y := (hframe o hfresh).trans hy
          rw [List.reverse_cons] at hturned
          have hsome : (m₁ y).isSome := hturned.isSome y (by simp)
          -- `head->next->next = head`, and then `head->next = NULL`
          refine ⟨Function.update (Function.update m₁ y (some o)) o (some 0), ?_, ?_, ?_⟩
          · have hnext : (Function.update m₁ y (some o) o).isSome := by
              rw [Function.update_of_ne hyo.symm, ho]
              rfl
            simp only [ok_bind, nextOf_eq ho, setNext_eq hsome, setNext_eq hnext]
            rw [List.getLastD_cons, List.getLastD_cons, List.getLastD_cons]
            rfl
          · obtain ⟨a, hbefore, hlast⟩ := leads_append.mp hturned
            obtain rfl : a = y := hlast.1
            rw [List.getLastD_cons, List.reverse_cons, List.reverse_cons, leads_append]
            refine ⟨o, leads_append.mpr ⟨a, ?_, rfl, hl.2.1, o, ?_, rfl⟩, rfl, hne, 0, ?_, rfl⟩
            · refine hbefore.congr fun z hz => ?_
              have hz' : z ∈ l := List.mem_reverse.mp hz
              rw [Function.update_of_ne, Function.update_of_ne]
              · rintro rfl
                exact (List.nodup_cons.mp hl.nodup).1 hz'
              · rintro rfl
                exact hfresh (List.mem_cons_of_mem _ hz')
            · rw [Function.update_of_ne hyo, Function.update_self]
            · exact Function.update_self ..
          · intro a ha
            rw [List.mem_cons, not_or] at ha
            rw [Function.update_of_ne ha.1, Function.update_of_ne, hframe a ha.2]
            rintro rfl
            exact ha.2 List.mem_cons_self

/-- `Flip` turns a way to `NULL` around. -/
theorem flip_leads (h : Leads m o l 0) :
    ∃ m', (∀ fuel, l.length < fuel → flip fuel m o = .ok (m', l.getLastD 0)) ∧
      Leads m' (l.getLastD 0) l.reverse 0 ∧ ∀ a, a ∉ l → m' a = m a := by
  obtain ⟨m', hloop, hturned, hframe⟩ := flipLoop_leads 0 h h.nodup
  refine ⟨m', fun fuel hfuel => ?_, hturned, hframe⟩
  obtain ⟨k, rfl⟩ := Nat.exists_eq_add_of_lt hfuel
  rw [flip, show l.length + k + 1 = k + 1 + l.length by omega, hloop, flipLoop, if_pos rfl]
  rfl

/-- Both functions turn a way to `NULL` around, and leave the memory the same. -/
theorem flips_agree (h : Leads m o l 0) :
    ∃ m', (∀ fuel, l.length < fuel → flip fuel m o = .ok (m', l.getLastD 0) ∧
        flipNode fuel m o = .ok (m', l.getLastD 0)) ∧
      Leads m' (l.getLastD 0) l.reverse 0 ∧ ∀ a, a ∉ l → m' a = m a := by
  obtain ⟨m', hflip, hturned, hframe⟩ := flip_leads h
  refine ⟨m', fun fuel hfuel => ⟨hflip fuel hfuel, ?_⟩, hturned, hframe⟩
  obtain ⟨m₂, hflip, hturned₂, hframe₂⟩ := flipNode_leads h hfuel
  have hsame : m₂ = m' := by
    funext a
    by_cases ha : a ∈ l
    · exact hturned₂.eq_on hturned a (List.mem_reverse.mpr ha)
    · rw [hframe₂ a ha, hframe a ha]
  rw [hflip, hsame]

/-- Two nodes and `NULL`. -/
theorem flips_agree_two :
    Leads (fun a => if a = 3 then some 5 else if a = 5 then some 0 else none) 3 [3, 5] 0 ∧
      ∃ m' : NodeMap, Leads m' 5 [5, 3] 0 := by
  have h : Leads (fun a => if a = 3 then some 5 else if a = 5 then some 0 else none) 3 [3, 5] 0 :=
    ⟨rfl, by decide, 5, rfl, rfl, by decide, 0, rfl, rfl⟩
  obtain ⟨m', -, hturned, -⟩ := flips_agree h
  exact ⟨h, m', hturned⟩

/-! ## Cycles -/

/-- Where the way runs into a cycle, at `c`, `Flip` turns the cycle around, restores the way to
it and returns the head. -/
theorem flip_of_cycle {t rest : List Nat} {c : Nat} (h : Leads m o (t ++ c :: rest) c)
    (hnodup : (t ++ c :: rest).Nodup) :
    ∃ m', (∀ fuel, 2 * t.length + rest.length + 2 < fuel → flip fuel m o = .ok (m', o)) ∧
      Leads m' o (t ++ c :: rest.reverse) c ∧ ∀ a, a ∉ t ++ c :: rest → m' a = m a := by
  -- once through all nodes
  obtain ⟨m₁, hloop₁, hturned₁, hframe₁⟩ := flipLoop_leads 0 h hnodup
  have hreverse : (t ++ c :: rest).reverse = rest.reverse ++ c :: t.reverse := by simp
  rw [hreverse] at hturned₁
  obtain ⟨a, hround, hback⟩ := leads_append.mp hturned₁
  obtain rfl : a = c := hback.1
  -- and back from the node where the cycle closes
  obtain ⟨htail, hcycle, hapart⟩ := List.nodup_append.mp hnodup
  have ha : a ∉ t := fun hmem => hapart a hmem a List.mem_cons_self rfl
  have hnodup' : (a :: t.reverse).Nodup :=
    List.nodup_cons.mpr ⟨fun hmem => ha (List.mem_reverse.mp hmem), List.nodup_reverse.mpr htail⟩
  obtain ⟨m₂, hloop₂, hturned₂, hframe₂⟩ :=
    flipLoop_leads ((t ++ a :: rest).getLastD 0) hback hnodup'
  have hhead : (a :: t.reverse).getLastD ((t ++ a :: rest).getLastD 0) = o := by
    rw [hturned₂.eq_headD, h.eq_headD]
    cases t with
    | nil => rfl
    | cons x t => simp
  rw [hhead] at hturned₂ hloop₂
  refine ⟨m₂, fun fuel hfuel => ?_, ?_, fun b hb => ?_⟩
  · obtain ⟨k, rfl⟩ : ∃ k, fuel = k + 1 + (a :: t.reverse).length + (t ++ a :: rest).length := by
      refine ⟨fuel - (2 * t.length + rest.length + 3), ?_⟩
      simp only [List.length_cons, List.length_append, List.length_reverse]
      omega
    rw [flip, hloop₁, hloop₂, flipLoop, if_pos rfl]
    rfl
  · have hturned : (a :: t.reverse).reverse = t ++ [a] := by simp
    rw [hturned] at hturned₂
    rw [show t ++ a :: rest.reverse = (t ++ [a]) ++ rest.reverse by simp]
    refine leads_append.mpr ⟨_, hturned₂, hround.congr fun b hb => hframe₂ b fun hmem => ?_⟩
    have hb' := List.mem_reverse.mp hb
    rcases List.mem_cons.mp hmem with rfl | hmem
    · exact (List.nodup_cons.mp hcycle).1 hb'
    · exact hapart b (List.mem_reverse.mp hmem) b (List.mem_cons_of_mem a hb') rfl
  · rw [hframe₂ b fun hmem => hb ?_, hframe₁ b hb]
    rcases List.mem_cons.mp hmem with rfl | hmem
    · simp
    · exact List.mem_append_left _ (List.mem_reverse.mp hmem)

/-! ## Every structure -/

/-- The way from the head comes to `NULL`, or back to one of its nodes. -/
theorem LinkedStructure.exists_way (s : LinkedStructure) :
    (∃ l, Leads s.next? s.head l 0) ∨
      ∃ t c rest, (t ++ c :: rest).Nodup ∧ Leads s.next? s.head (t ++ c :: rest) c := by
  have hgo : ∀ n l a, l.Nodup → Leads s.next? s.head l a → (a = 0 ∨ (s.next? a).isSome) →
      s.finite.toFinset.card < l.length + n →
      (∃ l, Leads s.next? s.head l 0) ∨
        ∃ t c rest, (t ++ c :: rest).Nodup ∧ Leads s.next? s.head (t ++ c :: rest) c := by
    intro n
    induction n with
    | zero =>
        intro l a hnodup hway _ hfew
        -- there are no more nodes than there are in the memory
        have hsubset : l.toFinset ⊆ s.finite.toFinset := fun b hb =>
          s.finite.mem_toFinset.mpr (hway.isSome b (List.mem_toFinset.mp hb))
        have hcard := Finset.card_le_card hsubset
        rw [List.toFinset_card_of_nodup hnodup] at hcard
        omega
    | succ n ih =>
        intro l a hnodup hway hnode hfew
        rcases hnode with rfl | hnode
        · exact Or.inl ⟨l, hway⟩
        · by_cases hmem : a ∈ l
          · obtain ⟨t, rest, rfl⟩ := List.append_of_mem hmem
            exact Or.inr ⟨t, a, rest, hnodup, hway⟩
          · obtain ⟨b, hb⟩ := Option.isSome_iff_exists.mp hnode
            have hne : a ≠ 0 := by
              rintro rfl
              rw [s.noNull] at hb
              cases hb
            refine ih (l ++ [a]) b ?_ ?_ (s.closed a b hb) ?_
            · exact List.nodup_append_comm.mp (List.nodup_cons.mpr ⟨hmem, hnodup⟩)
            · exact leads_append.mpr ⟨a, hway, rfl, hne, b, hb, rfl⟩
            · rw [List.length_append, List.length_singleton]
              omega
  exact hgo (s.finite.toFinset.card + 1) [] s.head List.nodup_nil rfl s.head_closed (by simp)

/-- **`Flip` comes to an end on every structure.**  Where the way from the head ends it is turned
around, and the last node is the new head; where it runs into a cycle, the cycle is turned around
and nothing else, and the head is the same. -/
theorem flip_every_structure (s : LinkedStructure) :
    ∃ enough m' head', (∀ fuel, enough < fuel → flip fuel s.next? s.head = .ok (m', head')) ∧
      ((∃ l, Leads s.next? s.head l 0 ∧ head' = l.getLastD 0 ∧ Leads m' head' l.reverse 0 ∧
          ∀ a, a ∉ l → m' a = s.next? a) ∨
        ∃ t c rest, Leads s.next? s.head (t ++ c :: rest) c ∧ head' = s.head ∧
          Leads m' s.head (t ++ c :: rest.reverse) c ∧
          ∀ a, a ∉ t ++ c :: rest → m' a = s.next? a) := by
  rcases s.exists_way with ⟨l, hway⟩ | ⟨t, c, rest, hnodup, hway⟩
  · obtain ⟨m', hflip, hturned, hframe⟩ := flip_leads hway
    exact ⟨_, m', _, hflip, Or.inl ⟨l, hway, rfl, hturned, hframe⟩⟩
  · obtain ⟨m', hflip, hturned, hframe⟩ := flip_of_cycle hway hnodup
    exact ⟨_, m', s.head, hflip, Or.inr ⟨t, c, rest, hway, rfl, hturned, hframe⟩⟩

/-! ## Where two lists meet -/

/-- Two ways to `NULL` have no node in common, or they are one way from the first common node on. -/
theorem Leads.meet {o₁ o₂ : Nat} (h₁ : Leads m o₁ l₁ 0) (h₂ : Leads m o₂ l₂ 0) :
    l₁.Disjoint l₂ ∨ ∃ t₁ t₂ r rest, l₁ = t₁ ++ r :: rest ∧ l₂ = t₂ ++ r :: rest ∧
      t₁.Disjoint l₂ ∧ t₂.Disjoint l₁ := by
  induction l₂ generalizing o₂ with
  | nil => exact Or.inl (List.disjoint_nil_right l₁)
  | cons x l₂ ih =>
      obtain ⟨rfl, hne, y, hy, hl₂⟩ := h₂
      by_cases hmem : o₂ ∈ l₁
      · obtain ⟨t₁, rest, rfl⟩ := List.append_of_mem hmem
        obtain ⟨a, -, hsecond⟩ := leads_append.mp h₁
        obtain rfl := hsecond.eq_headD
        obtain rfl : rest = l₂ :=
          List.tail_eq_of_cons_eq (hsecond.unique ⟨rfl, hne, y, hy, hl₂⟩)
        exact Or.inr ⟨t₁, [], a, rest, rfl, rfl, List.disjoint_of_nodup_append h₁.nodup,
          List.disjoint_nil_left _⟩
      · rcases ih hl₂ with hapart | ⟨t₁, t₂, r, rest, heq₁, rfl, hapart₁, hapart₂⟩
        · exact Or.inl (List.disjoint_cons_right.mpr ⟨hmem, hapart⟩)
        · exact Or.inr ⟨t₁, o₂ :: t₂, r, rest, heq₁, rfl,
            List.disjoint_cons_right.mpr
              ⟨fun ht => hmem (heq₁ ▸ List.mem_append_left _ ht), hapart₁⟩,
            List.disjoint_cons_left.mpr ⟨hmem, hapart₂⟩⟩

/-- The inner loop tells whether the node is on the first list. -/
theorem findInner_leads (h : Leads m o l 0) (outer : Nat) {fuel : Nat} (hfuel : l.length < fuel) :
    findInner m outer fuel o = .ok (decide (outer ∈ l)) := by
  induction l generalizing o fuel with
  | nil =>
      obtain rfl : o = 0 := h
      obtain ⟨fuel, rfl⟩ := Nat.exists_eq_add_of_lt hfuel
      rw [findInner, if_pos rfl]
      rfl
  | cons x l ih =>
      obtain ⟨rfl, hne, y, hy, hl⟩ := h
      obtain ⟨fuel, rfl⟩ : ∃ k, fuel = k + 1 := ⟨fuel - 1, by omega⟩
      rw [List.length_cons] at hfuel
      rw [findInner, if_neg hne]
      by_cases heq : o = outer
      · rw [if_pos heq, heq]
        simp [pure, Except.pure]
      · rw [if_neg heq, nextOf_eq hy, ok_bind, ih hl (by omega)]
        simp [Ne.symm heq]

/-- The outer loop looks for the first node of the second list that is on the first. -/
theorem findOuter_leads {head1 fuel : Nat} (h₁ : Leads m head1 l₁ 0) (hfuel : l₁.length < fuel)
    (h₂ : Leads m o l₂ 0) {rounds : Nat} (hrounds : l₂.length < rounds) :
    findOuter m head1 fuel rounds o = .ok ((l₂.find? (· ∈ l₁)).getD 0) := by
  induction l₂ generalizing o rounds with
  | nil =>
      obtain rfl : o = 0 := h₂
      obtain ⟨rounds, rfl⟩ := Nat.exists_eq_add_of_lt hrounds
      rw [findOuter, if_pos rfl]
      rfl
  | cons x l₂ ih =>
      obtain ⟨rfl, hne, y, hy, hl₂⟩ := h₂
      obtain ⟨rounds, rfl⟩ : ∃ k, rounds = k + 1 := ⟨rounds - 1, by omega⟩
      rw [List.length_cons] at hrounds
      rw [findOuter, if_neg hne, findInner_leads h₁ o hfuel, ok_bind]
      by_cases hmem : o ∈ l₁
      · rw [if_pos (decide_eq_true hmem), List.find?_cons_of_pos (by simpa using hmem)]
        rfl
      · rw [if_neg (by simpa using hmem), nextOf_eq hy, ok_bind, ih hl₂ (by omega),
          List.find?_cons_of_neg (by simpa using hmem)]

/-- The first node of a list that is on another one, where the two meet. -/
theorem find?_meet {t r rest} (hmem : r ∈ l₁) (hapart : List.Disjoint t l₁) :
    (t ++ r :: rest).find? (· ∈ l₁) = some r := by
  have hnone : t.find? (· ∈ l₁) = none :=
    List.find?_eq_none.mpr fun x hx => by simpa using hapart hx
  rw [List.find?_append, hnone, List.find?_cons_of_pos (by simpa using hmem), Option.none_or]

/-- **`FindIntersection` returns the node where two lists meet**, whichever list is given first:
before it they have nothing in common, and from it on they are the same. -/
theorem findIntersection_meet {fuel head1 head2 : Nat} (h₁ : Leads m head1 l₁ 0)
    (h₂ : Leads m head2 l₂ 0) (hfuel₁ : l₁.length < fuel) (hfuel₂ : l₂.length < fuel) :
    ∃ r, findIntersection fuel m head1 head2 = .ok r ∧
      findIntersection fuel m head2 head1 = .ok r ∧
      (r = 0 ∧ l₁.Disjoint l₂ ∨ r ≠ 0 ∧ ∃ t₁ t₂ rest, l₁ = t₁ ++ r :: rest ∧
        l₂ = t₂ ++ r :: rest ∧ t₁.Disjoint l₂ ∧ t₂.Disjoint l₁) := by
  simp only [findIntersection, findOuter_leads h₁ hfuel₁ h₂ hfuel₂,
    findOuter_leads h₂ hfuel₂ h₁ hfuel₁]
  rcases h₁.meet h₂ with hapart | ⟨t₁, t₂, r, rest, rfl, rfl, hapart₁, hapart₂⟩
  · have hnone₁ : l₁.find? (· ∈ l₂) = none :=
      List.find?_eq_none.mpr fun x hx => by simpa using hapart hx
    have hnone₂ : l₂.find? (· ∈ l₁) = none :=
      List.find?_eq_none.mpr fun x hx => by simpa using hapart.symm hx
    exact ⟨0, by rw [hnone₂]; rfl, by rw [hnone₁]; rfl, Or.inl ⟨rfl, hapart⟩⟩
  · obtain ⟨a, -, hrest⟩ := leads_append.mp h₁
    have hr₁ : r ∈ t₁ ++ r :: rest := List.mem_append_right _ List.mem_cons_self
    have hr₂ : r ∈ t₂ ++ r :: rest := List.mem_append_right _ List.mem_cons_self
    exact ⟨r, by rw [find?_meet hr₁ hapart₂]; rfl, by rw [find?_meet hr₂ hapart₁]; rfl,
      Or.inr ⟨hrest.2.1, t₁, t₂, rest, rfl, rfl, hapart₁, hapart₂⟩⟩

/-- The lists 1, 7 and 2, 7. -/
theorem findIntersection_meet_tail :
    let m : NodeMap := fun a => if a = 1 ∨ a = 2 then some 7 else if a = 7 then some 0 else none
    ∃ r, findIntersection 3 m 1 2 = .ok r ∧ r ≠ 0 := by
  intro m
  have h₁ : Leads m 1 [1, 7] 0 := ⟨rfl, by decide, 7, rfl, rfl, by decide, 0, rfl, rfl⟩
  have h₂ : Leads m 2 [2, 7] 0 := ⟨rfl, by decide, 7, rfl, rfl, by decide, 0, rfl, rfl⟩
  obtain ⟨r, hr, -, ⟨-, hapart⟩ | ⟨hne, -⟩⟩ :=
    findIntersection_meet h₁ h₂ (show 2 < 3 by decide) (show 2 < 3 by decide)
  · exact absurd (show 7 ∈ [2, 7] by decide) (hapart (show 7 ∈ [1, 7] by decide))
  · exact ⟨r, hr, hne⟩

end Ds
end InfinityLabs
