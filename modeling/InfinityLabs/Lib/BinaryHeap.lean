import Mathlib.Logic.Equiv.Basic
import InfinityLabs.Lib.Comparator

/-!
# The order of a binary heap

The array of a binary heap: the children of place `p` are the places `2 * p + 1` and
`2 * p + 2`, and no element is above the one at its parent's place.

An algorithm that repairs the order does so around one place `k` at a time.  Off `k` all
is in order, and the children of `k` are not above the parent of `k` (`OrderedAround`).
While the element at `k` moves up it is not below its children (`UpOrder`), and while it
moves down it is not above its parent (`DownOrder`).
-/

namespace InfinityLabs
namespace Lib
namespace BinaryHeap

universe u

/-! ## Places -/

/-- The place of the left child. -/
def left (i : Nat) : Nat := i * 2 + 1

/-- The place of the right child. -/
def right (i : Nat) : Nat := i * 2 + 2

/-- The place of the parent. -/
def parent (i : Nat) : Nat := (i - 1) / 2

/-- Place `c` is a child of place `p`. -/
def IsChild (p c : Nat) : Prop := 0 < c ∧ parent c = p

/-- A place that is not the first one is a child. -/
theorem isChild_parent {c : Nat} (hc : 0 < c) : IsChild (parent c) c := ⟨hc, rfl⟩

/-- Children come behind their parent. -/
theorem IsChild.lt {p c : Nat} (h : IsChild p c) : p < c := by
  obtain ⟨hpos, rfl⟩ := h
  unfold parent
  omega

/-- The children of a place. -/
theorem isChild_iff {p c : Nat} : IsChild p c ↔ c = left p ∨ c = right p := by
  unfold IsChild parent left right
  omega

/-- A place has one parent. -/
theorem IsChild.unique {p q c : Nat} (hp : IsChild p c) (hq : IsChild q c) : p = q :=
  hp.2.symm.trans hq.2

/-! ## Order -/

variable {α : Type u} (C : Comparator α)

/-- The element at place `i` is not above the one at place `j`, where the array has both. -/
def LeAt (v : Array α) (i j : Nat) : Prop :=
  ∀ x ∈ v[i]?, ∀ y ∈ v[j]?, C.cmp x y ≤ 0

/-- No element is above its parent. -/
def HeapOrder (v : Array α) : Prop :=
  ∀ p c, IsChild p c → LeAt C v c p

/-- The order holds off place `k`, and across it. -/
structure OrderedAround (v : Array α) (k : Nat) : Prop where
  off : ∀ p c, IsChild p c → p ≠ k → c ≠ k → LeAt C v c p
  across : ∀ p c, IsChild p k → IsChild k c → LeAt C v c p

/-- The order holds but for place `k` and its parent. -/
structure UpOrder (v : Array α) (k : Nat) : Prop extends OrderedAround C v k where
  below : ∀ c, IsChild k c → LeAt C v c k

/-- The order holds but for place `k` and its children. -/
structure DownOrder (v : Array α) (k : Nat) : Prop extends OrderedAround C v k where
  above : ∀ p, IsChild p k → LeAt C v k p

variable {C} {v v' : Array α}

/-- The order is transitive through a place of the array. -/
theorem LeAt.trans {i j k : Nat} (hij : LeAt C v i j) (hjk : LeAt C v j k) (hj : j < v.size) :
    LeAt C v i k :=
  fun x hx z hz => C.trans x v[j] z (hij x hx v[j] (Array.getElem?_eq_getElem hj))
    (hjk v[j] (Array.getElem?_eq_getElem hj) z hz)

/-- A place behind the array is below every other one. -/
theorem leAt_of_size_le {i : Nat} (hi : v.size ≤ i) (j : Nat) : LeAt C v i j := by
  intro x hx
  rw [Array.getElem?_eq_none hi] at hx
  cases hx

/-- Two elements of the array. -/
theorem leAt_iff {i j : Nat} (hi : i < v.size) (hj : j < v.size) :
    LeAt C v i j ↔ C.cmp v[i] v[j] ≤ 0 := by
  simp [LeAt, hi, hj]

/-- An element is not above itself. -/
theorem leAt_refl (i : Nat) : LeAt C v i i := by
  intro x hx y hy
  rw [Option.mem_unique hx hy]
  exact Int.le_of_eq (C.refl y)

/-- Of two elements one is not above the other. -/
theorem leAt_of_not {i j : Nat} (h : ¬ LeAt C v i j) : LeAt C v j i := by
  intro y hy x hx
  by_contra hnot
  apply h
  intro x' hx' y' hy'
  rw [Option.mem_unique hx' hx, Option.mem_unique hy' hy, C.le_swap]
  exact Int.le_of_lt (Int.not_le.mp hnot)

/-- The order depends on the elements at the two places. -/
theorem LeAt.congr {i j i' j' : Nat} (h : LeAt C v i j) (hi : ∀ x ∈ v'[i']?, x ∈ v[i]?)
    (hj : ∀ y ∈ v'[j']?, y ∈ v[j]?) : LeAt C v' i' j' :=
  fun x hx y hy => h x (hi x hx) y (hj y hy)

/-- Off place `k` and its parent, and between these two. -/
theorem UpOrder.heapOrder {k : Nat} (h : UpOrder C v k)
    (habove : ∀ p, IsChild p k → LeAt C v k p) : HeapOrder C v := by
  intro p c hc
  by_cases hck : c = k
  · rw [hck] at hc ⊢
    exact habove p hc
  · by_cases hpk : p = k
    · rw [hpk] at hc ⊢
      exact h.below c hc
    · exact h.off p c hc hpk hck

/-- Off place `k` and its children, and between these. -/
theorem DownOrder.heapOrder {k : Nat} (h : DownOrder C v k)
    (hbelow : ∀ c, IsChild k c → LeAt C v c k) : HeapOrder C v := by
  intro p c hc
  by_cases hpk : p = k
  · rw [hpk] at hc ⊢
    exact hbelow c hc
  · by_cases hck : c = k
    · rw [hck] at hc ⊢
      exact h.above p hc
    · exact h.off p c hc hpk hck

/-- The order around a place survives a change of the element at that place. -/
theorem HeapOrder.around {k : Nat} (h : HeapOrder C v) (hk : k < v.size)
    (hsame : ∀ j, j ≠ k → ∀ x ∈ v'[j]?, x ∈ v[j]?) : OrderedAround C v' k where
  off p c hc hpk hck := (h p c hc).congr (hsame c hck) (hsame p hpk)
  across p c hp hc :=
    ((h k c hc).trans (h p k hp) hk).congr (hsame c (Nat.ne_of_gt hc.lt))
      (hsame p (Nat.ne_of_lt hp.lt))

/-- An element above its parent is not below its children. -/
theorem OrderedAround.upOrder {k p : Nat} (h : OrderedAround C v k) (hk : k < v.size)
    (hp : IsChild p k) (hnot : ¬ LeAt C v k p) : UpOrder C v k :=
  ⟨h, fun c hc => (h.across p c hp hc).trans (leAt_of_not hnot) (Nat.lt_trans hp.lt hk)⟩

/-- **The root is maximal.** -/
theorem HeapOrder.le_root (h : HeapOrder C v) {i : Nat} (hi : i < v.size) : LeAt C v i 0 := by
  induction i using Nat.strongRecOn with
  | ind i ih =>
      by_cases hpos : 0 < i
      · have hchild := isChild_parent hpos
        have hlt := hchild.lt
        exact (h _ i hchild).trans (ih _ hlt (Nat.lt_trans hlt hi)) (Nat.lt_trans hlt hi)
      · have hzero : i = 0 := Nat.eq_zero_of_not_pos hpos
        rw [hzero]
        exact leAt_refl 0

/-! ## Exchanges -/

/-- The array after an exchange. -/
theorem getElem?_swap_apply {i j : Nat} (hi : i < v.size) (hj : j < v.size) (k : Nat) :
    (v.swap i j)[k]? = v[Equiv.swap i j k]? := by
  rw [Array.getElem?_swap, Equiv.swap_apply_def]
  by_cases hki : k = i
  · subst hki
    by_cases hkj : k = j
    · subst hkj
      simp [hi]
    · simp [Ne.symm hkj, hj]
  · by_cases hkj : k = j
    · subst hkj
      simp [hki, hi]
    · simp [hki, hkj, Ne.symm hki, Ne.symm hkj]

/-- The order after an exchange. -/
theorem leAt_swap_iff {i j : Nat} (hi : i < v.size) (hj : j < v.size) (a b : Nat) :
    LeAt C (v.swap i j) a b ↔ LeAt C v (Equiv.swap i j a) (Equiv.swap i j b) := by
  simp only [LeAt, getElem?_swap_apply hi hj]

/-- **One step up**: the element at `k` changes places with its parent, which is not above
it. -/
theorem UpOrder.swap {k p : Nat} (h : UpOrder C v k) (hp : IsChild p k) (hk : k < v.size)
    (hpv : p < v.size) (hle : LeAt C v p k) : UpOrder C (v.swap k p) p := by
  have hpk := hp.lt
  refine ⟨⟨fun q c hc hqp hcp => ?_, fun q c hq hc => ?_⟩, fun c hc => ?_⟩
  · -- a pair off `p`: only the children of `k` have a new parent
    rw [leAt_swap_iff]
    by_cases hck : c = k
    · exact absurd (hc.unique (hck ▸ hp)) hqp
    · rw [Equiv.swap_apply_of_ne_of_ne hck hcp]
      by_cases hqk : q = k
      · rw [hqk, Equiv.swap_apply_left]
        exact h.across p c hp (hqk ▸ hc)
      · rw [Equiv.swap_apply_of_ne_of_ne hqk hqp]
        exact h.off q c hc hqk hck
  · rw [leAt_swap_iff, Equiv.swap_apply_of_ne_of_ne (Nat.ne_of_lt (Nat.lt_trans hq.lt hpk))
      (Nat.ne_of_lt hq.lt)]
    have hpq := h.off q p hq (Nat.ne_of_lt (Nat.lt_trans hq.lt hpk)) (Nat.ne_of_lt hpk)
    by_cases hck : c = k
    · rw [hck, Equiv.swap_apply_left]
      exact hpq
    · rw [Equiv.swap_apply_of_ne_of_ne hck (Nat.ne_of_gt hc.lt)]
      exact (h.off p c hc (Nat.ne_of_lt hpk) hck).trans hpq hpv
  · rw [leAt_swap_iff, Equiv.swap_apply_right]
    by_cases hck : c = k
    · rw [hck, Equiv.swap_apply_left]
      exact hle
    · rw [Equiv.swap_apply_of_ne_of_ne hck (Nat.ne_of_gt hc.lt)]
      exact (h.off p c hc (Nat.ne_of_lt hpk) hck).trans hle hpv

/-- **One step down**: the element at `k` changes places with the larger one of its
children, which is not below it. -/
theorem DownOrder.swap {k c : Nat} (h : DownOrder C v k) (hc : IsChild k c) (hk : k < v.size)
    (hcv : c < v.size) (hlarger : ∀ d, IsChild k d → LeAt C v d c) (hle : LeAt C v k c) :
    DownOrder C (v.swap k c) c := by
  have hkc := hc.lt
  refine ⟨⟨fun q d hd hqc hdc => ?_, fun q d hq hd => ?_⟩, fun q hq => ?_⟩
  · -- a pair off `c`: the parent of `k` and its other child have a new neighbour
    rw [leAt_swap_iff]
    by_cases hdk : d = k
    · rw [hdk] at hd ⊢
      rw [Equiv.swap_apply_left, Equiv.swap_apply_of_ne_of_ne (Nat.ne_of_lt hd.lt) hqc]
      exact h.across q c hd hc
    · rw [Equiv.swap_apply_of_ne_of_ne hdk hdc]
      by_cases hqk : q = k
      · rw [hqk, Equiv.swap_apply_left]
        exact hlarger d (hqk ▸ hd)
      · rw [Equiv.swap_apply_of_ne_of_ne hqk hqc]
        exact h.off q d hd hqk hdk
  · rw [hq.unique hc, leAt_swap_iff, Equiv.swap_apply_left,
      Equiv.swap_apply_of_ne_of_ne (Nat.ne_of_gt (Nat.lt_trans hkc hd.lt))
        (Nat.ne_of_gt hd.lt)]
    exact h.off c d hd (Nat.ne_of_gt hkc) (Nat.ne_of_gt (Nat.lt_trans hkc hd.lt))
  · rw [hq.unique hc, leAt_swap_iff, Equiv.swap_apply_left, Equiv.swap_apply_right]
    exact hle

end BinaryHeap
end Lib
end InfinityLabs
