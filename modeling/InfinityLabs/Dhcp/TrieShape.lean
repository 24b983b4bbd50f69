import InfinityLabs.Dhcp.Trie

/-!
# The shape of a trie

In a trie of depth `d` only the nodes at level `0` are ever leaves, and every
node keeps its free mark: an internal node is no leaf, so `TRIEUpdateMetadata`
marks it free whatever its subtree holds.  The metadata therefore never change,
and a search depends on the nodes and on the leaves at level `0` alone.

`occupy` is the write that a successful insertion amounts to.
-/

namespace InfinityLabs
namespace Dhcp

open Lib

namespace Trie

/-! ## Pointers -/

/-- `NULL` has `NULL` children. -/
@[simp] theorem child_null (x : Bool) : Trie.null.child x = .null := rfl

@[simp] theorem isNull_null : Trie.null.isNull = true := rfl

/-- `NULL` leads to `NULL`. -/
@[simp] theorem deref_null (p : Pointer) : Trie.null.deref p = .null := by
  induction p with
  | nil => rfl
  | cons x p ih => exact ih

/-- A null test as an equation. -/
theorem isNull_iff {t : Trie} : t.isNull = true ↔ t = .null := by
  cases t with
  | null => simp
  | node left right isLeaf hasFree => simp [isNull]

/-- A pointer is followed piece by piece. -/
theorem deref_append (t : Trie) (p q : Pointer) :
    t.deref (p ++ q) = (t.deref p).deref q := by
  induction p generalizing t with
  | nil => rfl
  | cons x p ih => exact ih (t.child x)

/-- The last step of a pointer is a child. -/
theorem deref_snoc (t : Trie) (p : Pointer) (x : Bool) :
    t.deref (p ++ [x]) = (t.deref p).child x :=
  deref_append t p [x]

/-- A written child is read back. -/
theorem child_setChild_self {t : Trie} (ht : t.isNull = false) (x : Bool) (c : Trie) :
    (t.setChild x c).child x = c := by
  cases t with
  | null => cases ht
  | node left right isLeaf hasFree => cases x <;> rfl

/-- The other child is untouched. -/
theorem child_setChild_of_ne (t : Trie) {x y : Bool} (hne : x ≠ y) (c : Trie) :
    (t.setChild x c).child y = t.child y := by
  cases t with
  | null => rfl
  | node left right isLeaf hasFree =>
      cases x with
      | false =>
          cases y with
          | false => exact absurd rfl hne
          | true => rfl
      | true =>
          cases y with
          | false => rfl
          | true => exact absurd rfl hne

/-- Writing back the child that is there changes nothing. -/
theorem setChild_child (t : Trie) (x : Bool) : t.setChild x (t.child x) = t := by
  cases t with
  | null => rfl
  | node left right isLeaf hasFree => cases x <;> rfl

/-- The second of two writes of a child stays. -/
theorem setChild_setChild (t : Trie) (x : Bool) (c c' : Trie) :
    (t.setChild x c).setChild x c' = t.setChild x c' := by
  cases t with
  | null => rfl
  | node left right isLeaf hasFree => cases x <;> rfl

/-- A node stays a node. -/
@[simp] theorem isNull_setChild (t : Trie) (x : Bool) (c : Trie) :
    (t.setChild x c).isNull = t.isNull := by
  cases t with
  | null => rfl
  | node left right isLeaf hasFree => cases x <;> rfl

/-- Writes through one pointer depend on the node there. -/
theorem modify_congr {f g : Trie → Trie} {p : Pointer} {t : Trie}
    (hfg : f (t.deref p) = g (t.deref p)) : t.modify f p = t.modify g p := by
  induction p generalizing t with
  | nil => exact hfg
  | cons x p ih =>
      rw [modify, modify, ih hfg]

/-- A write that keeps the node keeps the trie. -/
theorem modify_eq_self {f : Trie → Trie} {p : Pointer} {t : Trie}
    (hf : f (t.deref p) = t.deref p) : t.modify f p = t := by
  induction p generalizing t with
  | nil => exact hf
  | cons x p ih => rw [modify, ih hf, setChild_child]

/-- Only a node leads to a node. -/
theorem isNull_of_deref {p : Pointer} {t : Trie} (hp : (t.deref p).isNull = false) :
    t.isNull = false := by
  cases t with
  | null =>
      rw [deref_null] at hp
      cases hp
  | node left right isLeaf hasFree => rfl

/-- Writes through one pointer compose, where the pointer leads to a node. -/
theorem modify_modify (f g : Trie → Trie) {p : Pointer} {t : Trie}
    (hp : (t.deref p).isNull = false) :
    (t.modify f p).modify g p = t.modify (fun s => g (f s)) p := by
  induction p generalizing t with
  | nil => rfl
  | cons x p ih =>
      have ht := isNull_of_deref hp
      rw [modify, modify, modify, child_setChild_self ht, setChild_setChild, ih hp]

/-- What a write leaves at its pointer. -/
theorem deref_modify_self (f : Trie → Trie) {p : Pointer} {t : Trie}
    (hp : (t.deref p).isNull = false) : (t.modify f p).deref p = f (t.deref p) := by
  induction p generalizing t with
  | nil => rfl
  | cons x p ih =>
      have ht := isNull_of_deref hp
      rw [modify, deref, child_setChild_self ht]
      exact ih hp

/-- What a write leaves at a pointer of the same length. -/
theorem deref_modify {f : Trie → Trie} (hf : f .null = .null) {p q : Pointer} {t : Trie}
    (hlength : p.length = q.length) :
    (t.modify f p).deref q = if p = q then f (t.deref q) else t.deref q := by
  induction p generalizing t q with
  | nil =>
      cases q with
      | nil => simp [modify, deref]
      | cons y q => simp at hlength
  | cons x p ih =>
      cases q with
      | nil => simp at hlength
      | cons y q =>
          have hrest : p.length = q.length := by simpa using hlength
          by_cases hxy : x = y
          · subst hxy
            cases t with
            | null =>
                simp only [modify, setChild, deref, child_null, deref_null, hf, ite_self]
            | node left right isLeaf hasFree =>
                rw [modify, deref, child_setChild_self rfl, ih hrest]
                simp [deref]
          · rw [modify, deref, child_setChild_of_ne t hxy]
            simp [hxy, deref]

/-! ## Well-formed tries -/

/-- A trie of depth `d`: leaves stand at level `0` only, and every node is marked
free. -/
def Wf : Nat → Trie → Prop
  | _, .null => True
  | 0, .node left right _ hasFree => left = .null ∧ right = .null ∧ hasFree = true
  | d + 1, .node left right isLeaf hasFree =>
      isLeaf = false ∧ hasFree = true ∧ left.Wf d ∧ right.Wf d

@[simp] theorem wf_null (d : Nat) : Trie.null.Wf d := by
  cases d <;> exact True.intro

@[simp] theorem wf_empty (d : Nat) : Trie.empty.Wf d := by
  cases d with
  | zero => exact ⟨rfl, rfl, rfl⟩
  | succ d => exact ⟨rfl, rfl, wf_null d, wf_null d⟩

/-- A child is one level shallower. -/
theorem Wf.child {d : Nat} {t : Trie} (h : t.Wf (d + 1)) (x : Bool) : (t.child x).Wf d := by
  cases t with
  | null => exact wf_null d
  | node left right isLeaf hasFree =>
      cases x with
      | false => exact h.2.2.1
      | true => exact h.2.2.2

/-- A node is marked free. -/
theorem Wf.hasFree {d : Nat} {t : Trie} (h : t.Wf d) (ht : t.isNull = false) :
    t.hasFree = true := by
  cases t with
  | null => cases ht
  | node left right isLeaf hasFree =>
      cases d with
      | zero => exact h.2.2
      | succ d => exact h.2.1

/-- A pointer leads down as many levels as it is long. -/
theorem Wf.deref {r : Nat} {p : Pointer} {t : Trie} (h : t.Wf (p.length + r)) :
    (t.deref p).Wf r := by
  induction p generalizing t with
  | nil =>
      show t.Wf r
      simpa using h
  | cons x p ih =>
      have hlevel : (x :: p).length + r = p.length + r + 1 := by
        simp only [List.length_cons]
        omega
      rw [hlevel] at h
      exact ih (h.child x)

/-- A child written into a node keeps the shape. -/
theorem Wf.setChild {d : Nat} {t c : Trie} (h : t.Wf (d + 1)) (hc : c.Wf d) (x : Bool) :
    (t.setChild x c).Wf (d + 1) := by
  cases t with
  | null => exact wf_null _
  | node left right isLeaf hasFree =>
      obtain ⟨hleaf, hfree, hleft, hright⟩ := h
      cases x with
      | false => exact ⟨hleaf, hfree, hc, hright⟩
      | true => exact ⟨hleaf, hfree, hleft, hc⟩

/-- A write that keeps the shape of a node keeps the shape of the trie. -/
theorem Wf.modify {r : Nat} {f : Trie → Trie} (hf : ∀ s : Trie, s.Wf r → (f s).Wf r)
    {p : Pointer} {t : Trie} (h : t.Wf (p.length + r)) : (t.modify f p).Wf (p.length + r) := by
  induction p generalizing t with
  | nil =>
      simp only [List.length_nil, Nat.zero_add] at h ⊢
      exact hf t h
  | cons x p ih =>
      have hlevel : (x :: p).length + r = p.length + r + 1 := by
        simp only [List.length_cons]
        omega
      rw [hlevel] at h ⊢
      exact h.setChild (ih (h.child x)) x

/-- Marking a node at level `0` keeps its shape. -/
theorem Wf.setLeaf {t : Trie} (h : t.Wf 0) (isLeaf : Bool) : (t.setLeaf isLeaf).Wf 0 := by
  cases t with
  | null => exact wf_null 0
  | node left right leaf hasFree => exact h

end Trie

/-- An internal node is marked free already. -/
theorem refreshNode_eq_self {d : Nat} {t : Trie} (h : t.Wf (d + 1)) : refreshNode t = t := by
  cases t with
  | null => rfl
  | node left right isLeaf hasFree =>
      obtain ⟨rfl, rfl, -, -⟩ := h
      simp [refreshNode]

/-- **The metadata never change**: an update of internal nodes does nothing. -/
theorem trieUpdateMetadata_eq_self {d : Nat} {t : Trie} (h : t.Wf d)
    {pathNodes : List Pointer} (hpath : ∀ p ∈ pathNodes, p.length < d) :
    trieUpdateMetadata t pathNodes = t := by
  induction pathNodes with
  | nil => rfl
  | cons p pathNodes ih =>
      have hrest := ih fun q hq => hpath q (List.mem_cons_of_mem p hq)
      have hp := hpath p List.mem_cons_self
      rw [trieUpdateMetadata, List.foldr_cons]
      show (trieUpdateMetadata t pathNodes).modify refreshNode p = t
      rw [hrest]
      refine Trie.modify_eq_self (refreshNode_eq_self (d := d - p.length - 1) ?_)
      apply Trie.Wf.deref
      have hlevel : p.length + (d - p.length - 1 + 1) = d := by omega
      rwa [hlevel]

/-! ## Searching -/

/-- The hosts that a trie holds: the nodes at level `0` that are leaves. -/
def Holds (t : Trie) (d h : Nat) : Prop :=
  (t.deref (pathOf d h)).isLeaf = true

instance (t : Trie) (d h : Nat) : Decidable (Holds t d h) :=
  inferInstanceAs (Decidable (_ = true))

/-- `TraversePath` follows the bits as far as there are nodes. -/
theorem traversePath_eq {t : Trie} {d r h : Nat} {p : Pointer} (hp : Leads d r h p)
    (hnode : (t.deref p).isNull = false) :
    traversePath t h r p =
      if (t.deref (pathOf d h)).isNull then none else some (pathOf d h) := by
  induction r generalizing p with
  | zero =>
      obtain rfl := hp.eq_pathOf
      simp [traversePath, hnode]
  | succ r ih =>
      rw [traversePath]
      by_cases hchild : ((t.deref p).child (h.testBit r)).isNull = true
      · have hpath : pathOf d h = p ++ h.testBit r :: pathOf r h := hp
        have hnull : t.deref (pathOf d h) = .null := by
          rw [hpath, Trie.deref_append, Trie.deref, Trie.isNull_iff.mp hchild,
            Trie.deref_null]
        simp [hchild, hnull]
      · rw [if_neg hchild]
        apply ih hp.snoc
        rw [Trie.deref_snoc]
        exact Bool.eq_false_of_not_eq_true hchild

/-- `TRIESearch` reports the hosts that the trie holds. -/
theorem trieSearch_eq_true {t : Trie} (ht : t.isNull = false) (h d : Nat) :
    trieSearch t h d = true ↔ Holds t d h := by
  rw [trieSearch, traversePath_eq (Leads.nil d h) ht, Holds]
  cases hnode : t.deref (pathOf d h) with
  | null => simp [Trie.isNull, Trie.isLeaf]
  | node left right isLeaf hasFree => simp [Trie.isNull, hnode]

/-! ## Freeing a host -/

/-- The nodes above a host are internal. -/
theorem length_lt_of_mem_pathAbove {d r h : Nat} {p q : Pointer} (hp : Leads d r h p)
    (hq : q ∈ pathAbove h r p) : q.length < d := by
  induction r generalizing p with
  | zero => cases hq
  | succ r ih =>
      have hlength := hp.length_add
      rcases List.mem_cons.mp hq with rfl | hrest
      · omega
      · exact ih hp.snoc hrest

/-- The trie with the leaf of `h` cleared. -/
def release (d h : Nat) (t : Trie) : Trie :=
  t.modify (Trie.setLeaf false) (pathOf d h)

/-- Releasing a host keeps the shape. -/
theorem release_wf {d : Nat} (h : Nat) {t : Trie} (ht : t.Wf d) : (release d h t).Wf d := by
  have hmodify := Trie.Wf.modify (r := 0) (f := Trie.setLeaf false) (p := pathOf d h)
    (fun s hs => hs.setLeaf false) (t := t) (by simpa using ht)
  simpa [release] using hmodify

/-- A released trie is no null pointer. -/
theorem isNull_release (d h : Nat) (t : Trie) : (release d h t).isNull = t.isNull := by
  unfold release
  cases pathOf d h with
  | nil => cases t <;> rfl
  | cons x p => rw [Trie.modify, Trie.isNull_setChild]

/-- The hosts below `2 ^ d` that a trie holds after a release. -/
theorem holds_release {d h k : Nat} (hh : h < 2 ^ d) (hk : k < 2 ^ d) (t : Trie) :
    Holds (release d h t) d k ↔ k ≠ h ∧ Holds t d k := by
  rw [Holds, release, Trie.deref_modify rfl (by simp)]
  simp only [pathOf_inj hh hk]
  by_cases heq : h = k
  · subst heq
    cases t.deref (pathOf d h) <;> simp [Trie.setLeaf, Trie.isLeaf]
  · simp [heq, Ne.symm heq, Holds]

/-- **`TRIEFree` releases** a host that the trie holds, and refuses any other. -/
theorem trieFree_spec {t : Trie} {d : Nat} (ht : t.Wf d) (hnode : t.isNull = false)
    (h : Nat) :
    (Holds t d h ∧ trieFree t h d = (release d h t, .TRIE_SUCCESS)) ∨
      (¬ Holds t d h ∧ ∃ status, status ≠ .TRIE_SUCCESS ∧ trieFree t h d = (t, status)) := by
  rw [trieFree, traversePath_eq (Leads.nil d h) hnode]
  cases htarget : t.deref (pathOf d h) with
  | null =>
      refine Or.inr ⟨?_, .TRIE_IP_NOT_FOUND, by decide, rfl⟩
      simp [Holds, htarget, Trie.isLeaf]
  | node left right isLeaf hasFree =>
      simp only [Trie.isNull, Bool.false_eq_true, if_false, htarget, Trie.isLeaf]
      cases isLeaf with
      | false =>
          refine Or.inr ⟨?_, .TRIE_DOUBLE_FREE, by decide, rfl⟩
          simp [Holds, htarget, Trie.isLeaf]
      | true =>
          refine Or.inl ⟨?_, ?_⟩
          · simp [Holds, htarget, Trie.isLeaf]
          · have hmetadata := trieUpdateMetadata_eq_self (release_wf h ht)
              fun q hq => length_lt_of_mem_pathAbove (Leads.nil d h) hq
            simp only [Bool.not_true, Bool.false_eq_true, if_false]
            exact congrArg (fun t' => (t', TrieStatus.TRIE_SUCCESS)) hmetadata

/-! ## Occupying a host -/

/-- The node there, or a new one. -/
def Trie.grow : Trie → Trie
  | .null => .empty
  | .node left right isLeaf hasFree => .node left right isLeaf hasFree

/-- The trie with the path of `h` created and its leaf set. -/
def occupy : Nat → Nat → Trie → Trie
  | 0, _, t => t.grow.setLeaf true
  | d + 1, h, t => t.grow.setChild (h.testBit d) (occupy d h (t.child (h.testBit d)))

theorem grow_of_node {t : Trie} (ht : t.isNull = false) : t.grow = t := by
  cases t with
  | null => cases ht
  | node left right isLeaf hasFree => rfl

theorem isNull_grow (t : Trie) : t.grow.isNull = false := by
  cases t with
  | null => rfl
  | node left right isLeaf hasFree => rfl

/-- A new node in the place of a missing one makes no difference. -/
theorem occupy_empty (d h : Nat) : occupy d h .empty = occupy d h .null := by
  cases d with
  | zero => rfl
  | succ d =>
      have hchild : Trie.empty.child (h.testBit d) = Trie.null.child (h.testBit d) := by
        cases h.testBit d <;> rfl
      rw [occupy, occupy, hchild]
      rfl

/-- An occupied trie is no null pointer. -/
theorem isNull_occupy (d h : Nat) (t : Trie) : (occupy d h t).isNull = false := by
  cases d with
  | zero => cases t <;> rfl
  | succ d => rw [occupy, Trie.isNull_setChild, isNull_grow]

/-- Occupying a host keeps the shape. -/
theorem occupy_wf {d : Nat} (h : Nat) {t : Trie} (ht : t.Wf d) : (occupy d h t).Wf d := by
  induction d generalizing t with
  | zero =>
      cases t with
      | null => exact ⟨rfl, rfl, rfl⟩
      | node left right isLeaf hasFree => exact ht
  | succ d ih =>
      have hgrow : t.grow.Wf (d + 1) := by
        cases t with
        | null => exact Trie.wf_empty (d + 1)
        | node left right isLeaf hasFree => exact ht
      exact hgrow.setChild (ih (ht.child _)) _

/-- Below the nodes that are there, a host is occupied locally. -/
theorem occupy_eq_modify {d r h : Nat} {p : Pointer} {t : Trie} (hp : Leads d r h p)
    (hnode : (t.deref p).isNull = false) : occupy d h t = t.modify (occupy r h) p := by
  induction p generalizing d t with
  | nil =>
      have hd : r = d := by simpa using hp.length_add
      rw [hd]
      rfl
  | cons x p ih =>
      have hlength := hp.length_add
      obtain ⟨n, rfl⟩ : ∃ n, d = n + 1 := ⟨p.length + r, by simp at hlength; omega⟩
      have hpath : pathOf (n + 1) h = x :: (p ++ pathOf r h) := hp
      rw [pathOf, List.cons.injEq] at hpath
      obtain ⟨rfl, hrest⟩ := hpath
      have ht := Trie.isNull_of_deref hnode
      rw [occupy, grow_of_node ht, Trie.modify, ih hrest hnode]

/-- An occupied trie holds the new host, and what it held before. -/
theorem isLeaf_occupy (d h k : Nat) (t : Trie) :
    ((occupy d h t).deref (pathOf d k)).isLeaf =
      (decide (pathOf d h = pathOf d k) || (t.deref (pathOf d k)).isLeaf) := by
  induction d generalizing t with
  | zero =>
      cases t with
      | null => rfl
      | node left right isLeaf hasFree => simp [occupy, pathOf, Trie.deref, Trie.grow,
          Trie.setLeaf, Trie.isLeaf]
  | succ d ih =>
      rw [occupy, pathOf, Trie.deref, Trie.deref]
      by_cases hbit : h.testBit d = k.testBit d
      · rw [← hbit, Trie.child_setChild_self (isNull_grow t), ih]
        simp [pathOf, hbit]
      · have hgrow : t.grow.child (k.testBit d) = t.child (k.testBit d) := by
          cases t with
          | null => cases k.testBit d <;> rfl
          | node left right isLeaf hasFree => rfl
        rw [Trie.child_setChild_of_ne _ hbit, hgrow]
        simp [pathOf, hbit]

/-- The hosts below `2 ^ d` that an occupied trie holds. -/
theorem holds_occupy {d h k : Nat} (hh : h < 2 ^ d) (hk : k < 2 ^ d) (t : Trie) :
    Holds (occupy d h t) d k ↔ k = h ∨ Holds t d k := by
  rw [Holds, isLeaf_occupy, Bool.or_eq_true, decide_eq_true_eq, pathOf_inj hh hk]
  exact or_congr_left eq_comm

end Dhcp
end InfinityLabs
