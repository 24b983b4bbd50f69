import InfinityLabs.Dhcp.TrieShape

/-!
# What an insertion does

An insertion asks for a value and either finds it free or probes on.  From a
taken value the search re-enters at the lowest clear bit whose right subtree
exists, sets this bit, keeps all lower bits, and never looks above it again
(`Probes`).  An insertion occupies the value that the probes end at, and reports
that none is available if they end nowhere.
-/

namespace InfinityLabs
namespace Dhcp

open Lib

/-! ## Probes -/

/-- At bit `b` the path of `h` turns left where there is a right child: the node
above level `b` on the path of `h` with bit `b` set. -/
def PivotAt (t : Trie) (d h b : Nat) : Prop :=
  h.testBit b = false ∧
    (t.deref ((pathOf d (h ||| 1 <<< b)).take (d - b))).isNull = false

/-- The pivot that the loop ends with below level `level`: the lowest one. -/
def LowestPivot (t : Trie) (d level h b : Nat) : Prop :=
  b < level ∧ PivotAt t d h b ∧ ∀ c < b, ¬ PivotAt t d h c

/-- The search for `h` below level `level` ends at the free value `x`. -/
inductive Probes (t : Trie) (d : Nat) : Nat → Nat → Nat → Prop
  | free {level h : Nat} (hfree : ¬ Holds t d h) : Probes t d level h h
  | next {level h b x : Nat} (htaken : Holds t d h) (hpivot : LowestPivot t d level h b)
      (hrest : Probes t d (b + 1) (h ||| 1 <<< b) x) : Probes t d level h x

/-- There is one lowest pivot. -/
theorem LowestPivot.unique {t : Trie} {d level h b b' : Nat}
    (hb : LowestPivot t d level h b) (hb' : LowestPivot t d level h b') : b = b' := by
  rcases Nat.lt_trichotomy b b' with hlt | heq | hgt
  · exact absurd hb.2.1 (hb'.2.2 b hlt)
  · exact heq
  · exact absurd hb'.2.1 (hb.2.2 b' hgt)

/-- The probes end at one value. -/
theorem Probes.unique {t : Trie} {d level h x y : Nat} (hx : Probes t d level h x)
    (hy : Probes t d level h y) : x = y := by
  induction hx with
  | free hfree =>
      cases hy with
      | free _ => rfl
      | next htaken _ _ => exact absurd htaken hfree
  | next htaken hpivot _ ih =>
      cases hy with
      | free hfree => exact absurd htaken hfree
      | next _ hpivot' hrest' =>
          obtain rfl := hpivot.unique hpivot'
          exact ih hrest'

/-- The probes end at a free value. -/
theorem Probes.free_end {t : Trie} {d level h x : Nat} (hx : Probes t d level h x) :
    ¬ Holds t d x := by
  induction hx with
  | free hfree => exact hfree
  | next _ _ _ ih => exact ih

/-- Probes from a free value stay there. -/
theorem Probes.eq_of_free {t : Trie} {d level h x : Nat} (hx : Probes t d level h x)
    (hfree : ¬ Holds t d h) : x = h :=
  hx.unique (.free hfree)

/-- The probes stay below `2 ^ d`. -/
theorem Probes.lt {t : Trie} {d level h x : Nat} (hx : Probes t d level h x)
    (hlevel : level ≤ d) (hh : h < 2 ^ d) : x < 2 ^ d := by
  induction hx with
  | free _ => exact hh
  | next _ hpivot _ ih =>
      have hb := Nat.lt_of_lt_of_le hpivot.1 hlevel
      exact ih (Nat.succ_le_of_lt hb) (or_one_shiftLeft_lt hh hb)

/-- The probes from a taken value end at another one. -/
theorem Probes.ne_of_taken {t : Trie} {d level h x : Nat} (hx : Probes t d level h x)
    (htaken : Holds t d h) : x ≠ h := by
  rintro rfl
  exact hx.free_end htaken

/-- The hosts that the search for `h` below level `level` comes to, as long as it
finds them taken.  They depend on the nodes of the trie alone. -/
inductive Visits (t : Trie) (d : Nat) : Nat → Nat → Nat → Prop
  | here {level h : Nat} : Visits t d level h h
  | next {level h b x : Nat} (hpivot : LowestPivot t d level h b)
      (hrest : Visits t d (b + 1) (h ||| 1 <<< b) x) : Visits t d level h x

/-- A search ends where one of the hosts that it comes to is free. -/
theorem exists_probes_iff {t : Trie} {d level h : Nat} :
    (∃ x, Probes t d level h x) ↔ ∃ x, Visits t d level h x ∧ ¬ Holds t d x := by
  constructor
  · rintro ⟨x, hx⟩
    induction hx with
    | free hfree => exact ⟨_, .here, hfree⟩
    | next _ hpivot _ ih =>
        obtain ⟨y, hy, hfree⟩ := ih
        exact ⟨y, .next hpivot hy, hfree⟩
  · rintro ⟨x, hx, hfree⟩
    induction hx with
    | here => exact ⟨_, .free hfree⟩
    | @next level h b x hpivot _ ih =>
        by_cases htaken : Holds t d h
        · obtain ⟨y, hy⟩ := ih hfree
          exact ⟨y, .next htaken hpivot hy⟩
        · exact ⟨h, .free htaken⟩

/-! ## The descent -/

/-- A pivot is seen at the node where the path turns left. -/
theorem pivotAt_iff {t : Trie} {d h b : Nat} {p : Pointer} (hp : Leads d (b + 1) h p) :
    PivotAt t d h b ↔ h.testBit b = false ∧ ((t.deref p).child true).isNull = false := by
  have hlead : Leads d (b + 1) (h ||| 1 <<< b) p := hp.congr fun i hi => by
    rw [testBit_or_one_shiftLeft]
    simp [Nat.ne_of_lt (Nat.lt_of_succ_le hi)]
  have hbit : (h ||| 1 <<< b).testBit b = true := by
    rw [testBit_or_one_shiftLeft]
    simp
  have hlength := hlead.length_add
  have hpath : pathOf d (h ||| 1 <<< b) = p ++ true :: pathOf b (h ||| 1 <<< b) := by
    have hwhole : pathOf d (h ||| 1 <<< b) = p ++ pathOf (b + 1) (h ||| 1 <<< b) := hlead
    rw [hwhole, pathOf, hbit]
  have htake : (pathOf d (h ||| 1 <<< b)).take (d - b) = p ++ [true] := by
    have hdb : d - b = p.length + 1 := by omega
    rw [hpath, hdb, List.take_length_add_append]
    rfl
  rw [PivotAt, htake, Trie.deref_snoc]

/-- What the pivot found between levels `r` and `level` is. -/
def PivotSpec (t : Trie) (d h level r : Nat) : Option (Pivot h level) → Prop
  | none => ∀ c, r ≤ c → c < level → ¬ PivotAt t d h c
  | some pivot =>
      r ≤ pivot.bit ∧ Leads d (pivot.bit + 1) h pivot.node ∧
        (t.deref pivot.node).isNull = false ∧ PivotAt t d h pivot.bit ∧
        ∀ c, r ≤ c → c < pivot.bit → ¬ PivotAt t d h c

/-- How the loop can end. -/
def DescentSpec (t : Trie) (d h level : Nat) : Descent h level → Prop
  | .missing current pathNodes remaining =>
      ¬ Holds t d h ∧ Leads d remaining h current ∧ (t.deref current).isNull = false ∧
        ∀ p ∈ pathNodes, p.length < d
  | .target current pathNodes =>
      ¬ Holds t d h ∧ Leads d 0 h current ∧ (t.deref current).isNull = false ∧
        ∀ p ∈ pathNodes, p.length < d
  | .blocked pivot => Holds t d h ∧ PivotSpec t d h level 0 pivot

/-- **The loop follows the bits**: it ends at the first missing child, at the free
target, or at a taken target with the lowest pivot. -/
theorem descend_spec {t : Trie} {d h level : Nat} (ht : t.Wf d) {r : Nat}
    (hr : r ≤ level) {current : Pointer} {pathNodes : List Pointer}
    {pivot : Option (Pivot h level)} (hp : Leads d r h current)
    (hnode : (t.deref current).isNull = false) (hpath : ∀ p ∈ pathNodes, p.length < d)
    (hpivot : PivotSpec t d h level r pivot) :
    DescentSpec t d h level (descend t h level r hr current pathNodes pivot) := by
  -- by the bits that are left; the pivot is the lowest one above them
  induction r generalizing current pathNodes pivot with
  | zero =>
      obtain rfl := hp.eq_pathOf
      rw [descend]
      by_cases hleaf : (t.deref (pathOf d h)).isLeaf = true
      · rw [if_pos hleaf]
        exact ⟨hleaf, hpivot⟩
      · rw [if_neg hleaf]
        exact ⟨hleaf, hp, hnode, hpath⟩
  | succ bit ih =>
      have hlength := hp.length_add
      have hpath' : ∀ p ∈ pathNodes ++ [current], p.length < d := by
        intro p hmem
        rcases List.mem_append.mp hmem with hold | hnew
        · exact hpath p hold
        · rw [List.mem_singleton.mp hnew]
          omega
      have hwf : ∀ x, ((t.deref current).child x).Wf bit := by
        intro x
        refine Trie.Wf.child (Trie.Wf.deref ?_) x
        rwa [hlength]
      -- the pivot that this round leaves is the lowest one from `bit` on
      have hpivot' : PivotSpec t d h level bit
          (if hturn : h.testBit bit = false ∧ ((t.deref current).child true).isNull = false ∧
              ((t.deref current).child true).hasFree = true then
            some ⟨current, bit, hr, hturn.1⟩
          else pivot) := by
        split
        · rename_i hturn
          exact ⟨Nat.le_refl bit, hp, hnode, (pivotAt_iff hp).mpr ⟨hturn.1, hturn.2.1⟩,
            fun c hle hlt => absurd hlt (Nat.not_lt.mpr hle)⟩
        · rename_i hturn
          have hhere : ¬ PivotAt t d h bit := by
            rw [pivotAt_iff hp]
            exact fun ⟨hclear, hright⟩ =>
              hturn ⟨hclear, hright, (hwf true).hasFree hright⟩
          have hlower : ∀ c, bit ≤ c → PivotAt t d h c → bit + 1 ≤ c := by
            intro c hle hc
            rcases Nat.eq_or_lt_of_le hle with rfl | hlt
            · exact absurd hc hhere
            · exact hlt
          cases pivot with
          | none => exact fun c hle hlt hc => hpivot c (hlower c hle hc) hlt hc
          | some pv =>
              obtain ⟨hle, hlead, hnull, hat, hlowest⟩ := hpivot
              exact ⟨Nat.le_of_succ_le hle, hlead, hnull, hat,
                fun c hc hlt hpc => hlowest c (hlower c hc hpc) hlt hpc⟩
      rw [descend]
      by_cases hchild : ((t.deref current).child (h.testBit bit)).isNull = true
      · -- a missing child: the host below it is free
        rw [if_pos hchild]
        refine ⟨?_, hp, hnode, hpath'⟩
        have hsplit : pathOf d h = current ++ h.testBit bit :: pathOf bit h := hp
        rw [Holds, hsplit, Trie.deref_append, Trie.deref, Trie.isNull_iff.mp hchild,
          Trie.deref_null]
        simp [Trie.isLeaf]
      · have hsome : ((t.deref current).child (h.testBit bit)).isNull = false :=
          Bool.eq_false_of_not_eq_true hchild
        -- every node is marked free, so the loop never stops above the target
        rw [if_neg hchild, (hwf _).hasFree hsome, if_neg (by simp)]
        refine ih (Nat.le_of_succ_le hr) hp.snoc ?_ hpath' hpivot'
        rw [Trie.deref_snoc]
        exact hsome

/-! ## Memory -/

/-- Memory suffices for the nodes that are missing on the path of `h` below the node `t`,
with `r` bits below it. -/
def Suffices (malloc : Nat → Bool) (h : Nat) : Nat → Trie → Prop
  | 0, _ => True
  | r + 1, t =>
      ((t.child (h.testBit r)).isNull = true → malloc r = true) ∧
        Suffices malloc h r (t.child (h.testBit r))

/-- With memory, memory suffices. -/
theorem suffices_of_malloc {malloc : Nat → Bool} (hmalloc : ∀ b, malloc b = true) (h r : Nat)
    (t : Trie) : Suffices malloc h r t := by
  induction r generalizing t with
  | zero => exact trivial
  | succ r ih => exact ⟨fun _ => hmalloc r, ih _⟩

/-- A new node has as many nodes missing below it as none. -/
theorem suffices_empty (malloc : Nat → Bool) (h r : Nat) :
    Suffices malloc h r .empty ↔ Suffices malloc h r .null := by
  cases r with
  | zero => exact Iff.rfl
  | succ r =>
      have hchild : Trie.empty.child (h.testBit r) = Trie.null.child (h.testBit r) := by
        cases h.testBit r <;> rfl
      rw [Suffices, Suffices, hchild]

/-- On the part of a path that is there nothing is missing. -/
theorem suffices_iff (malloc : Nat → Bool) {d r h : Nat} {p : Pointer} {t : Trie}
    (hp : Leads d r h p) (hnode : (t.deref p).isNull = false) :
    Suffices malloc h d t ↔ Suffices malloc h r (t.deref p) := by
  induction p generalizing d t with
  | nil =>
      have hd : r = d := by simpa using hp.length_add
      rw [hd]
      exact Iff.rfl
  | cons x p ih =>
      have hlength := hp.length_add
      obtain ⟨n, rfl⟩ : ∃ n, d = n + 1 := ⟨p.length + r, by simp at hlength; omega⟩
      have hpath : pathOf (n + 1) h = x :: (p ++ pathOf r h) := hp
      rw [pathOf, List.cons.injEq] at hpath
      obtain ⟨rfl, hrest⟩ := hpath
      have hchild : (t.child (h.testBit n)).isNull = false := Trie.isNull_of_deref hnode
      rw [Suffices, hchild]
      exact (and_iff_right (by simp)).trans (ih hrest hnode)

/-- A trie that holds the hosts that `t` holds. -/
structure SameHosts (d : Nat) (t t' : Trie) : Prop where
  wf : t'.Wf d
  node : t'.isNull = false
  holds : ∀ k, Holds t' d k ↔ Holds t d k

/-- A new node makes no leaf. -/
theorem isLeaf_deref_setChild_empty {s : Trie} {x : Bool} (hchild : s.child x = .null)
    (rest : Pointer) :
    ((s.setChild x .empty).deref rest).isLeaf = (s.deref rest).isLeaf := by
  cases rest with
  | nil => cases s <;> cases x <;> rfl
  | cons y rest =>
      rw [Trie.deref, Trie.deref]
      by_cases hxy : x = y
      · subst hxy
        cases hs : s with
        | null => cases x <;> rfl
        | node left right isLeaf hasFree =>
            rw [Trie.child_setChild_self rfl, ← hs, hchild, Trie.deref_null]
            cases rest with
            | nil => rfl
            | cons z rest =>
                have hempty : Trie.empty.child z = .null := by cases z <;> rfl
                rw [Trie.deref, hempty, Trie.deref_null]
      · rw [Trie.child_setChild_of_ne s hxy]

/-- A missing node that is created holds no host. -/
theorem sameHosts_addNode {t : Trie} {d r h : Nat} {p : Pointer} (ht : t.Wf d)
    (hp : Leads d (r + 1) h p) (hnode : (t.deref p).isNull = false) {x : Bool}
    (hchild : (t.deref p).child x = .null) :
    SameHosts d t (t.modify (fun node => node.setChild x .empty) p) := by
  have hlength := hp.length_add
  refine ⟨?_, ?_, fun k => ?_⟩
  · rw [← hlength] at ht ⊢
    exact Trie.Wf.modify (fun s hs => hs.setChild (Trie.wf_empty r) x) ht
  · have hwrite := Trie.deref_modify_self (fun node => node.setChild x .empty) hnode
    apply Trie.isNull_of_deref (p := p)
    rw [hwrite, Trie.isNull_setChild]
    exact hnode
  · have hsplit : pathOf d k = (pathOf d k).take p.length ++ (pathOf d k).drop p.length :=
      (List.take_append_drop _ _).symm
    have htake : p.length = ((pathOf d k).take p.length).length := by
      rw [List.length_take, length_pathOf]
      omega
    rw [Holds, Holds, hsplit, Trie.deref_append, Trie.deref_append,
      Trie.deref_modify rfl htake]
    split
    · rename_i hsame
      rw [← hsame, isLeaf_deref_setChild_empty hchild]
    · exact Iff.rfl

/-! ## Allocation at the target -/

/-- Setting the leaf of a path that is there occupies the host. -/
theorem setLeaf_eq_occupy {t : Trie} {d h : Nat} {p : Pointer} (hp : Leads d 0 h p)
    (hnode : (t.deref p).isNull = false) :
    t.modify (Trie.setLeaf true) p = occupy d h t := by
  rw [occupy_eq_modify hp hnode]
  apply Trie.modify_congr
  rw [occupy, grow_of_node hnode]

/-- The loop of `AllocateAtTarget` creates the path, and setting its leaf occupies the
host; where memory ends it leaves nodes that hold nothing. -/
theorem createPath_spec {malloc : Nat → Bool} {d h r : Nat} {t : Trie} {p : Pointer}
    (ht : t.Wf d) (hp : Leads d r h p) (hnode : (t.deref p).isNull = false) :
    (Suffices malloc h r (t.deref p) ∧
      ∃ t', createPath malloc h r t p = (t', some (pathOf d h)) ∧
        t'.modify (Trie.setLeaf true) (pathOf d h) = occupy d h t) ∨
    (¬ Suffices malloc h r (t.deref p) ∧
      ∃ t', createPath malloc h r t p = (t', none) ∧ SameHosts d t t') := by
  -- by the bits that are left, over a trie that grows one node a round
  induction r generalizing t p with
  | zero =>
      obtain rfl := hp.eq_pathOf
      exact Or.inl ⟨trivial, t, rfl, setLeaf_eq_occupy hp hnode⟩
  | succ bit ih =>
      rw [createPath, Suffices]
      by_cases hchild : ((t.deref p).child (h.testBit bit)).isNull = true
      · have hnull := Trie.isNull_iff.mp hchild
        cases hmalloc : malloc bit with
        | false =>
            refine Or.inr ⟨fun hsuffices => ?_, t, by simp [hchild], ht,
              Trie.isNull_of_deref hnode, fun k => Iff.rfl⟩
            exact Bool.false_ne_true (hsuffices.1 hchild)
        | true =>
            have hwrite := Trie.deref_modify_self
              (fun node => node.setChild (h.testBit bit) .empty) hnode
            have hsame := sameHosts_addNode ht hp hnode hnull
            generalize hgrown : t.modify (fun node => node.setChild (h.testBit bit) .empty) p
              = grown at hwrite hsame
            have hnew : grown.deref (p ++ [h.testBit bit]) = .empty := by
              rw [Trie.deref_snoc, hwrite, Trie.child_setChild_self hnode]
            have hrest := ih hsame.wf hp.snoc (by rw [hnew]; rfl)
            rw [hnew, suffices_empty, ← hnull] at hrest
            simp only [hchild, Bool.not_true, Bool.false_eq_true, if_false, if_true,
              implies_true, true_and]
            rcases hrest with ⟨hsuffices, t', hcreate, hoccupy⟩ | ⟨hsuffices, t', hcreate, hsame'⟩
            · refine Or.inl ⟨hsuffices, t', hcreate, ?_⟩
              -- the new node stands where the path leads
              have hnode' : (grown.deref p).isNull = false := by
                rw [hwrite, Trie.isNull_setChild]
                exact hnode
              rw [hoccupy, occupy_eq_modify hp hnode', ← hgrown, Trie.modify_modify _ _ hnode,
                occupy_eq_modify hp hnode]
              apply Trie.modify_congr
              have hgrow : ((t.deref p).setChild (h.testBit bit) .empty).isNull = false := by
                rw [Trie.isNull_setChild]
                exact hnode
              rw [occupy, occupy, grow_of_node hgrow, grow_of_node hnode,
                Trie.child_setChild_self hnode, Trie.setChild_setChild, occupy_empty, hnull]
            · exact Or.inr ⟨hsuffices, t', hcreate, hsame'.wf, hsame'.node,
                fun k => (hsame'.holds k).trans (hsame.holds k)⟩
      · have hsome : ((t.deref p).child (h.testBit bit)).isNull = false :=
          Bool.eq_false_of_not_eq_true hchild
        rw [hsome]
        have hrest := ih ht hp.snoc (by rw [Trie.deref_snoc]; exact hsome)
        rw [Trie.deref_snoc] at hrest
        simpa using hrest

/-! ## The insertion -/

/-- The status of an insertion of `requested` that allocates `x`. -/
def insertStatus (requested x : Nat) : TrieStatus :=
  if x = requested then .TRIE_SUCCESS else .TRIE_IP_OCCUPIED_ALLOCATED_ANOTHER

/-- What an insertion of `requested` below level `level` can do. -/
inductive InsertionCase (malloc : Nat → Bool) (t : Trie) (d level requested : Nat) :
    Insertion → Prop
  | inserted {x : Nat} (hx : Probes t d level requested x) (hmemory : Suffices malloc x d t) :
      InsertionCase malloc t d level requested
        ⟨occupy d x t, insertStatus requested x, some x⟩
  | outOfMemory {x : Nat} {t' : Trie} (hx : Probes t d level requested x)
      (hmemory : ¬ Suffices malloc x d t) (hsame : SameHosts d t t') :
      InsertionCase malloc t d level requested ⟨t', .TRIE_ALLOC_FAILURE, none⟩
  | unavailable (hnone : ∀ x, ¬ Probes t d level requested x) :
      InsertionCase malloc t d level requested ⟨t, .TRIE_NO_IP_AVAILABLE, none⟩

/-- What an insertion of `requested` below level `level` must return. -/
def InsertionSpec (t : Trie) (d level requested : Nat) (result : Insertion) : Prop :=
  (∃ x, Probes t d level requested x ∧
    result = ⟨occupy d x t, insertStatus requested x, some x⟩) ∨
  ((∀ x, ¬ Probes t d level requested x) ∧ result = ⟨t, .TRIE_NO_IP_AVAILABLE, none⟩)

/-- `AllocateAtTarget` occupies a free target, or runs out of memory. -/
theorem allocateAtTarget_cases {malloc : Nat → Bool} {t : Trie} {d level h r : Nat}
    {p : Pointer} {pathNodes : List Pointer} (ht : t.Wf d) (hfree : ¬ Holds t d h)
    (hp : Leads d r h p) (hnode : (t.deref p).isNull = false)
    (hpath : ∀ q ∈ pathNodes, q.length < d) :
    InsertionCase malloc t d level h (allocateAtTarget malloc t p pathNodes h r) := by
  have hsuffices := suffices_iff malloc hp hnode
  rcases createPath_spec ht hp hnode with
    ⟨hmemory, t', hcreate, hoccupy⟩ | ⟨hmemory, t', hcreate, hsame⟩
  · have hcase : InsertionCase malloc t d level h ⟨occupy d h t, insertStatus h h, some h⟩ :=
      .inserted (.free hfree) (hsuffices.mpr hmemory)
    rw [allocateAtTarget, hcreate]
    dsimp only
    rw [hoccupy, trieUpdateMetadata_eq_self (occupy_wf h ht) hpath]
    rwa [insertStatus, if_pos rfl] at hcase
  · rw [allocateAtTarget, hcreate]
    exact .outOfMemory (.free hfree) (fun hall => hmemory (hsuffices.mp hall)) hsame

/-- The probes of a taken value go on from its lowest pivot. -/
theorem probes_taken_iff {t : Trie} {d level h b x : Nat} (htaken : Holds t d h)
    (hpivot : LowestPivot t d level h b) :
    Probes t d level h x ↔ Probes t d (b + 1) (h ||| 1 <<< b) x := by
  constructor
  · intro hx
    cases hx with
    | free hfree => exact absurd htaken hfree
    | next _ hpivot' hrest =>
        obtain rfl := hpivot.unique hpivot'
        exact hrest
  · exact fun hrest => .next htaken hpivot hrest

/-- **An insertion follows the probes**, from any node on the path of its value. -/
theorem trieInsertHelper_cases {malloc : Nat → Bool} {t : Trie} {d : Nat} (ht : t.Wf d)
    {level requested : Nat} {root : Pointer} (hp : Leads d level requested root)
    (hnode : (t.deref root).isNull = false) :
    InsertionCase malloc t d level requested
      (trieInsertHelper malloc t root requested level) := by
  -- by the clear bits below the level, of which every pivot sets one
  induction hn : zeroBits requested level using Nat.strong_induction_on
    generalizing level requested root with
  | _ n ih =>
    have hspec : DescentSpec t d requested level
        (descend t requested level level (Nat.le_refl level) root [] none) :=
      descend_spec ht (Nat.le_refl level) hp hnode (by simp) fun c hle hlt =>
        absurd hlt (Nat.not_lt.mpr hle)
    rw [trieInsertHelper]
    generalize descend t requested level level (Nat.le_refl level) root [] none = descent
      at hspec ⊢
    cases descent with
    | missing current pathNodes remaining =>
        obtain ⟨hfree, hlead, hcurrent, hpath⟩ := hspec
        exact allocateAtTarget_cases ht hfree hlead hcurrent hpath
    | target current pathNodes =>
        obtain ⟨hfree, hlead, hcurrent, hpath⟩ := hspec
        have hcase : InsertionCase malloc t d level requested
            ⟨occupy d requested t, insertStatus requested requested, some requested⟩ :=
          .inserted (.free hfree) ((suffices_iff malloc hlead hcurrent).mpr trivial)
        simp only
        rw [setLeaf_eq_occupy hlead hcurrent,
          trieUpdateMetadata_eq_self (occupy_wf requested ht) hpath]
        rwa [insertStatus, if_pos rfl] at hcase
    | blocked pivot =>
        obtain ⟨htaken, hpivot⟩ := hspec
        simp only
        cases pivot with
        | none =>
            -- the search gives up here, whatever is free above the level
            rw [findAndAllocateNextFree]
            refine .unavailable fun x hx => ?_
            cases hx with
            | free hfree => exact hfree htaken
            | next _ hlowest _ => exact hpivot _ (Nat.zero_le _) hlowest.1 hlowest.2.1
        | some pv =>
            rw [findAndAllocateNextFree]
            obtain ⟨-, hlead, hpvNode, hat, hlowest⟩ := hpivot
            have hlow : LowestPivot t d level requested pv.bit :=
              ⟨pv.bit_lt, hat, fun c hc => hlowest c (Nat.zero_le c) hc⟩
            -- above the pivot the next value has the bits of the blocked one
            have hlead' : Leads d (pv.bit + 1) (requested ||| 1 <<< pv.bit) pv.node :=
              hlead.congr fun i hi => by
                rw [testBit_or_one_shiftLeft]
                simp [Nat.ne_of_lt (Nat.lt_of_succ_le hi)]
            have hmeasure : zeroBits (requested ||| 1 <<< pv.bit) (pv.bit + 1) < n :=
              hn ▸ zeroBits_or_lt pv.bit_lt pv.bit_clear
            have hcase := ih _ hmeasure hlead' hpvNode rfl
            have hprobes := fun x => probes_taken_iff (x := x) htaken hlow
            generalize trieInsertHelper malloc t pv.node (requested ||| 1 <<< pv.bit)
              (pv.bit + 1) = result at hcase ⊢
            cases hcase with
            | @inserted x hx hmemory =>
                have hx' := (hprobes x).mpr hx
                have hinserted := InsertionCase.inserted hx' hmemory
                rw [insertStatus, if_neg (hx'.ne_of_taken htaken)] at hinserted
                simp only [insertStatus]
                by_cases hsame : x = requested ||| 1 <<< pv.bit
                · simpa [hsame] using hinserted
                · simpa [hsame] using hinserted
            | outOfMemory hx hmemory hsame =>
                exact .outOfMemory ((hprobes _).mpr hx) hmemory hsame
            | unavailable hnone =>
                exact .unavailable fun x hx => hnone x ((hprobes x).mp hx)

/-- **`TRIEInsert` follows the probes.** -/
theorem trieInsert_cases (malloc : Nat → Bool) {t : Trie} {d : Nat} (ht : t.Wf d)
    (hnode : t.isNull = false) (requested : Nat) :
    InsertionCase malloc t d d requested (trieInsert malloc t requested d) := by
  rw [trieInsert, hnode, if_neg (by simp), ht.hasFree hnode, if_neg (by simp)]
  exact trieInsertHelper_cases ht (Leads.nil d requested) hnode

/-- With memory, an insertion never runs out of it. -/
theorem trieInsert_spec {malloc : Nat → Bool} (hmalloc : ∀ b, malloc b = true) {t : Trie}
    {d : Nat} (ht : t.Wf d) (hnode : t.isNull = false) (requested : Nat) :
    InsertionSpec t d d requested (trieInsert malloc t requested d) := by
  have hcase := trieInsert_cases malloc ht hnode requested
  generalize trieInsert malloc t requested d = result at hcase ⊢
  cases hcase with
  | inserted hx _ => exact Or.inl ⟨_, hx, rfl⟩
  | outOfMemory _ hmemory _ => exact absurd (suffices_of_malloc hmalloc _ _ _) hmemory
  | unavailable hnone => exact Or.inr ⟨hnone, rfl⟩

end Dhcp
end InfinityLabs
