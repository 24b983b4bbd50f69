import InfinityLabs.Lib.ListParts
import Mathlib.Data.List.Basic
import Mathlib.Data.List.Nodup
import Mathlib.Data.List.Perm.Basic
import Mathlib.Tactic.Common

/-!
# Stable placement by keys

The elements of a list fall into buckets by their keys.  The buckets one after the other are the
list in the order of the keys, and in each bucket the elements keep their order.  Each element
has its slot in it, and the elements may be placed from the last to the first.
-/

namespace InfinityLabs
namespace Lib

variable {α : Type} (key : α → Nat)

/-- The elements with a key. -/
def bucket (l : List α) (k : Nat) : List α := l.filter fun a => key a = k

/-- The number of elements with a lower key. -/
def offset (l : List α) (k : Nat) : Nat := l.countP fun a => key a < k

/-- The elements bucket by bucket. -/
def buckets (l : List α) (r : Nat) : List α := (List.range r).flatMap (bucket key l)

variable {key} {l pre suf : List α} {k r : Nat} {x : α}

/-! ## Buckets -/

theorem bucket_append (l l' : List α) (k : Nat) :
    bucket key (l ++ l') k = bucket key l k ++ bucket key l' k :=
  List.filter_append ..

theorem bucket_singleton_self (x : α) : bucket key [x] (key x) = [x] := by
  simp [bucket]

theorem bucket_singleton_of_ne (h : k ≠ key x) : bucket key [x] k = [] := by
  simp [bucket, Ne.symm h]

theorem length_bucket_le : (bucket key l k).length ≤ l.length :=
  List.length_filter_le ..

/-- The elements with a key come behind those with a lower one. -/
theorem offset_succ (l : List α) (k : Nat) :
    offset key l (k + 1) = offset key l k + (bucket key l k).length := by
  induction l with
  | nil => rfl
  | cons a l ih =>
      rw [offset, bucket] at ih ⊢
      rw [offset, List.countP_cons, List.countP_cons, List.filter_cons, ih, offset]
      by_cases heq : key a = k
      case pos => simp [heq]; omega
      case neg =>
        have hiff : key a < k + 1 ↔ key a < k := by omega
        simp [heq, hiff]; omega

theorem offset_mono (l : List α) {k k' : Nat} (h : k ≤ k') : offset key l k ≤ offset key l k' :=
  List.countP_mono_left fun a _ ha => by simp at ha ⊢; omega

theorem offset_le_length : offset key l k ≤ l.length :=
  List.countP_le_length

theorem offset_eq_length (h : ∀ a ∈ l, key a < r) : offset key l r = l.length :=
  List.countP_eq_length.mpr fun a ha => by simpa using h a ha

/-- The buckets below a key hold the elements with a lower one. -/
theorem length_buckets (l : List α) (k : Nat) : (buckets key l k).length = offset key l k := by
  induction k with
  | zero => simp [buckets, offset]
  | succ k ih =>
      rw [buckets, List.range_succ, List.flatMap_append, List.length_append, ← buckets, ih,
        List.flatMap_singleton, offset_succ]

/-- The buckets hold the elements of the list. -/
theorem buckets_perm (h : ∀ a ∈ l, key a < r) : (buckets key l r).Perm l := by
  have hlower : (buckets key l r).Perm (l.filter fun a => key a < r) := by
    clear h
    induction r with
    | zero => simp [buckets]
    | succ r ih =>
        have hsplit := List.filter_append_perm (fun a => decide (key a < r))
          (l.filter fun a => key a < r + 1)
        rw [List.filter_filter, List.filter_filter] at hsplit
        rw [buckets, List.range_succ, List.flatMap_append, List.flatMap_singleton, ← buckets]
        refine (ih.append_right _).trans (List.Perm.trans (List.Perm.of_eq ?_) hsplit)
        congr 1
        · exact List.filter_congr fun a _ => by rw [Bool.eq_iff_iff]; simp; omega
        · exact List.filter_congr fun a _ => by rw [Bool.eq_iff_iff]; simp; omega
  rwa [List.filter_eq_self.mpr fun a ha => by simpa using h a ha] at hlower

/-- The buckets are in the order of the keys, and elements with one key stay in their order. -/
theorem pairwise_buckets {R : α → α → Prop} (h : l.Pairwise R) (r : Nat) :
    (buckets key l r).Pairwise fun a b => key a < key b ∨ key a = key b ∧ R a b := by
  have hkey : ∀ {k : Nat} {a : α}, a ∈ bucket key l k → key a = k := fun ha => by
    simpa using (List.mem_filter.mp ha).2
  rw [buckets, List.pairwise_flatMap]
  constructor
  · intro k _
    refine (h.sublist List.filter_sublist).imp_of_mem fun ha hb hab => Or.inr ⟨?_, hab⟩
    rw [hkey ha, hkey hb]
  · refine List.pairwise_lt_range.imp fun hlt a ha b hb => Or.inl ?_
    rwa [hkey ha, hkey hb]

/-! ## Slots -/

variable (key) in
/-- The slots of the elements that follow `pre` in the list `l`. -/
def slotsFrom (l pre : List α) : List α → List Nat
  | [] => []
  | x :: suf =>
      (offset key l (key x) + (bucket key pre (key x)).length) :: slotsFrom l (pre ++ [x]) suf

theorem slotsFrom_getElem? (l pre suf : List α) (i : Nat) :
    (slotsFrom key l pre suf)[i]? = suf[i]?.map fun x =>
      offset key l (key x) + (bucket key (pre ++ suf.take i) (key x)).length := by
  induction suf generalizing pre i with
  | nil => rfl
  | cons x suf ih =>
      cases i with
      | zero => simp [slotsFrom]
      | succ i =>
          rw [slotsFrom, List.getElem?_cons_succ, ih, List.getElem?_cons_succ, List.take_succ_cons,
            List.append_assoc, List.singleton_append]

variable (key) in
/-- The slot of each element among the buckets. -/
def slots (l : List α) : List Nat := slotsFrom key l [] l

theorem length_slots (l : List α) : (slots key l).length = l.length := by
  have hlength : ∀ (pre suf : List α), (slotsFrom key l pre suf).length = suf.length := by
    intro pre suf
    induction suf generalizing pre with
    | nil => rfl
    | cons x suf ih => rw [slotsFrom, List.length_cons, ih, List.length_cons]
  exact hlength [] l

/-- The slot of an element comes behind those with a lower key, and behind those with its key that
precede it. -/
theorem slots_split (pre suf : List α) (x : α) :
    (slots key (pre ++ x :: suf))[pre.length]? =
      some (offset key (pre ++ x :: suf) (key x) + (bucket key pre (key x)).length) := by
  rw [slots, slotsFrom_getElem?, getElem?_split, List.take_left, List.nil_append]
  rfl

theorem slots_getElem? {i : Nat} (h : l[i]? = some x) :
    (slots key l)[i]? = some (offset key l (key x) + (bucket key (l.take i) (key x)).length) := by
  obtain ⟨pre, suf, rfl, rfl⟩ := exists_append_cons_of_getElem? h
  rw [slots_split, List.take_left]

/-- An element is one of those with its key up to it. -/
theorem length_bucket_take_lt {i j : Nat} (h : l[i]? = some x) (hij : i < j) :
    (bucket key (l.take i) (key x)).length < (bucket key (l.take j) (key x)).length := by
  have hsublist : (l.take i ++ [x]).Sublist (l.take j) := by
    have hnext : l.take (i + 1) = l.take i ++ [x] := by
      rw [List.take_add_one, h]
      rfl
    rw [← hnext]
    exact List.take_sublist_take_left hij
  have hle := (hsublist.filter fun a => decide (key a = key x)).length_le
  rw [← bucket, bucket_append, bucket_singleton_self, List.length_append] at hle
  exact hle

/-- The slots are in the order of the keys, and of the list among equal keys. -/
theorem slots_lt {y : α} {i j p q : Nat} (hi : l[i]? = some x) (hj : l[j]? = some y)
    (hp : (slots key l)[i]? = some p) (hq : (slots key l)[j]? = some q)
    (hlt : key x < key y ∨ key x = key y ∧ i < j) : p < q := by
  rw [slots_getElem? hi, Option.some.injEq] at hp
  rw [slots_getElem? hj, Option.some.injEq] at hq
  subst hp hq
  rcases hlt with hlt | ⟨heq, hij⟩
  · have hlength : i < l.length := (List.getElem?_eq_some_iff.mp hi).1
    have hinside : (bucket key (l.take i) (key x)).length < _ :=
      length_bucket_take_lt hi hlength
    have hsucc : offset key l (key x + 1) = _ := offset_succ l (key x)
    have hmono : offset key l (key x + 1) ≤ offset key l (key y) := offset_mono l hlt
    rw [List.take_length] at hinside
    omega
  · rw [← heq]
    exact Nat.add_lt_add_left (length_bucket_take_lt hi hij) _

/-- Each slot is that of one element. -/
theorem slots_perm (l : List α) : (slots key l).Perm (List.range l.length) := by
  have hlength : (slots key l).length = l.length := length_slots l
  have hslot : ∀ {i : Nat}, i < l.length → ∃ x p, l[i]? = some x ∧ (slots key l)[i]? = some p :=
    fun hi => ⟨_, _, List.getElem?_eq_getElem hi, slots_getElem? (List.getElem?_eq_getElem hi)⟩
  have hnodup : (slots key l).Nodup := by
    rw [List.nodup_iff_getElem?_ne_getElem?]
    intro i j hij hj heq
    rw [hlength] at hj
    obtain ⟨x, p, hx, hp⟩ := hslot (Nat.lt_trans hij hj)
    obtain ⟨y, q, hy, hq⟩ := hslot hj
    obtain rfl : p = q := Option.some.inj (hp.symm.trans (heq.trans hq))
    rcases Nat.lt_trichotomy (key x) (key y) with hlt | hsame | hgt
    · exact Nat.lt_irrefl p (slots_lt hx hy hp hq (Or.inl hlt))
    · exact Nat.lt_irrefl p (slots_lt hx hy hp hq (Or.inr ⟨hsame, hij⟩))
    · exact Nat.lt_irrefl p (slots_lt hy hx hq hp (Or.inl hgt))
  have hle : (List.range l.length).length ≤ (slots key l).length :=
    Nat.le_of_eq (List.length_range.trans hlength.symm)
  refine (hnodup.subperm fun p hp => ?_).perm_of_length_le hle
  obtain ⟨i, hi⟩ := List.mem_iff_getElem?.mp hp
  have hlt : i < l.length := hlength ▸ (List.getElem?_eq_some_iff.mp hi).1
  obtain ⟨x, -, hx, -⟩ := hslot hlt
  rw [slots_getElem? hx, Option.some.injEq] at hi
  have hinside : (bucket key (l.take i) (key x)).length < _ := length_bucket_take_lt hx hlt
  have hsucc : offset key l (key x + 1) = _ := offset_succ l (key x)
  have hall : offset key l (key x + 1) ≤ l.length := offset_le_length
  rw [List.take_length] at hinside
  exact List.mem_range.mpr (by omega)

/-- Each element stands in its slot. -/
theorem buckets_slot (h : key x < r) :
    (buckets key (pre ++ x :: suf) r)[offset key (pre ++ x :: suf) (key x) +
      (bucket key pre (key x)).length]? = some x := by
  obtain ⟨n, rfl⟩ : ∃ n, r = key x + 1 + n := ⟨r - (key x + 1), by omega⟩
  have hbucket : bucket key (pre ++ x :: suf) (key x) =
      bucket key pre (key x) ++ x :: bucket key suf (key x) := by
    rw [← List.singleton_append, bucket_append, bucket_append, bucket_singleton_self]
    rfl
  rw [buckets, List.range_add, List.range_succ, List.flatMap_append, List.flatMap_append,
    List.flatMap_singleton, ← buckets, ← length_buckets, ← List.length_append, hbucket,
    List.append_assoc, List.append_assoc, ← List.append_assoc, List.cons_append]
  exact getElem?_split ..

/-! ## Placement from the last element on -/

variable (key) in
/-- A bucket where the elements of `suf` have been placed, and those of `pre` are still to come. -/
def segment (pre suf : List α) (k : Nat) : List (Option α) :=
  List.replicate (bucket key pre k).length none ++ (bucket key suf k).map some

variable (key) in
/-- The buckets where the elements of `suf` have been placed. -/
def placed (pre suf : List α) (r : Nat) : List (Option α) :=
  (List.range r).flatMap (segment key pre suf)

theorem length_segment : (segment key pre suf k).length = (bucket key (pre ++ suf) k).length := by
  rw [segment, bucket_append, List.length_append, List.length_append, List.length_replicate,
    List.length_map]

theorem length_placed : (placed key pre suf k).length = offset key (pre ++ suf) k := by
  rw [← length_buckets, placed, buckets, List.length_flatMap, List.length_flatMap]
  exact congrArg List.sum (List.map_congr_left fun _ _ => length_segment)

/-- At first no slot is written. -/
theorem placed_nil_right (h : ∀ a ∈ l, key a < r) :
    placed key l [] r = List.replicate l.length none := by
  refine List.eq_replicate_iff.mpr ⟨?_, fun a ha => ?_⟩
  · rw [length_placed, List.append_nil, offset_eq_length h]
  · obtain ⟨k, -, hk⟩ := List.mem_flatMap.mp ha
    rw [segment, show bucket key [] k = [] from rfl, List.map_nil, List.append_nil] at hk
    exact List.eq_of_mem_replicate hk

/-- In the end all slots are. -/
theorem placed_nil_left (l : List α) (r : Nat) :
    placed key [] l r = (buckets key l r).map some := by
  rw [placed, buckets, List.map_flatMap]
  rfl

/-- Another bucket is not changed. -/
theorem segment_of_ne (pre suf : List α) (h : k ≠ key x) :
    segment key (pre ++ [x]) suf k = segment key pre (x :: suf) k := by
  rw [segment, segment, bucket_append, bucket_singleton_of_ne h, List.append_nil,
    ← List.singleton_append, bucket_append [x], bucket_singleton_of_ne h, List.nil_append]

/-- The buckets before and behind that of an element. -/
theorem placed_split (pre suf : List α) (κ n : Nat) :
    placed key pre suf (κ + 1 + n) = placed key pre suf κ ++ (segment key pre suf κ ++
      ((List.range n).map (κ + 1 + ·)).flatMap (segment key pre suf)) := by
  rw [placed, List.range_add, List.range_succ, List.flatMap_append, List.flatMap_append,
    List.flatMap_singleton, List.append_assoc, placed]

/-- The last element that is not placed goes to its slot, which is the last of its bucket that is
not written. -/
theorem exists_placed_split (pre suf : List α) (hx : key x < r) :
    ∃ l₁ l₂, placed key (pre ++ [x]) suf r = l₁ ++ none :: l₂ ∧
      placed key pre (x :: suf) r = l₁ ++ some x :: l₂ ∧
      l₁.length = offset key (pre ++ x :: suf) (key x) + (bucket key pre (key x)).length := by
  obtain ⟨n, rfl⟩ : ∃ n, r = key x + 1 + n := ⟨r - (key x + 1), by omega⟩
  have hbefore : placed key (pre ++ [x]) suf (key x) = placed key pre (x :: suf) (key x) :=
    List.flatMap_congr fun k hk => segment_of_ne pre suf (Nat.ne_of_lt (List.mem_range.mp hk))
  have hbehind : ((List.range n).map (key x + 1 + ·)).flatMap (segment key (pre ++ [x]) suf) =
      ((List.range n).map (key x + 1 + ·)).flatMap (segment key pre (x :: suf)) := by
    refine List.flatMap_congr fun k hk => segment_of_ne pre suf ?_
    obtain ⟨i, -, rfl⟩ := List.mem_map.mp hk
    omega
  have hnone : segment key (pre ++ [x]) suf (key x) =
      List.replicate (bucket key pre (key x)).length none ++
        none :: (bucket key suf (key x)).map some := by
    rw [segment, bucket_append, bucket_singleton_self, List.length_append, List.length_singleton,
      List.replicate_succ', List.append_assoc, List.singleton_append]
  have hsome : segment key pre (x :: suf) (key x) =
      List.replicate (bucket key pre (key x)).length none ++
        some x :: (bucket key suf (key x)).map some := by
    rw [segment, ← List.singleton_append, bucket_append [x], bucket_singleton_self]
    rfl
  refine ⟨placed key pre (x :: suf) (key x) ++
    List.replicate (bucket key pre (key x)).length none,
    (bucket key suf (key x)).map some ++
      ((List.range n).map (key x + 1 + ·)).flatMap (segment key pre (x :: suf)), ?_, ?_, ?_⟩
  · rw [placed_split, hbefore, hbehind, hnone]
    simp only [List.append_assoc, List.cons_append]
  · rw [placed_split, hsome]
    simp only [List.append_assoc, List.cons_append]
  · rw [List.length_append, length_placed, List.length_replicate]

end Lib
end InfinityLabs
