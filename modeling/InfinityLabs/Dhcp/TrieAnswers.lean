import InfinityLabs.Dhcp.DhcpRuns
import InfinityLabs.Dhcp.Leases
import InfinityLabs.Dhcp.TrieRuns
import Mathlib.Data.Nat.Count

/-!
# Counting the free addresses

`TRIECountFree` counts the values that the trie does not hold.  The reserved hosts
are held, so they are not among them; `DHCPCountFree` subtracts them once more, and
is right only when no address is left.
-/

namespace InfinityLabs
namespace Dhcp

open Lib

/-! ## The trie's count -/

/-- A value below `2 ^ d` lies in the left subtree. -/
theorem holds_left {t : Trie} {d h : Nat} (hh : h < 2 ^ d) :
    Holds t (d + 1) h ↔ Holds (t.child false) d h := by
  rw [Holds, Holds, pathOf, Trie.deref, Nat.testBit_lt_two_pow hh]

/-- The values from `2 ^ d` on lie in the right subtree. -/
theorem holds_right {t : Trie} {d h : Nat} (hh : h < 2 ^ d) :
    Holds t (d + 1) (2 ^ d + h) ↔ Holds (t.child true) d h := by
  have hbit : (2 ^ d + h).testBit d = true := by
    rw [Nat.testBit_two_pow_add_eq, Nat.testBit_lt_two_pow hh]
    rfl
  have hpath : pathOf d (2 ^ d + h) = pathOf d h := by
    apply pathOf_congr
    intro i hi
    exact Nat.testBit_two_pow_add_gt hi h
  rw [Holds, Holds, pathOf, Trie.deref, hbit, hpath]

/-- The values below `2 ^ d` that a trie of depth `d` does not hold. -/
def freeValues (t : Trie) (d : Nat) : Nat :=
  Nat.count (fun h => ¬ Holds t d h) (2 ^ d)

/-- No value is held below a missing node. -/
theorem freeValues_null (d : Nat) : freeValues .null d = 1 <<< d := by
  rw [Nat.one_shiftLeft, freeValues, Nat.count_iff_forall]
  intro h _
  simp [Holds, Trie.isLeaf]

/-- The free values are those of the two subtrees. -/
theorem freeValues_succ (t : Trie) (d : Nat) :
    freeValues t (d + 1) = freeValues (t.child false) d + freeValues (t.child true) d := by
  have hpow : 2 ^ (d + 1) = 2 ^ d + 2 ^ d := by
    rw [Nat.pow_succ]
    omega
  rw [freeValues, hpow, Nat.count_add]
  congr 1
  · apply Nat.le_antisymm
    · exact Nat.count_mono_left fun h hh hfree => fun hold => hfree ((holds_left hh).mpr hold)
    · exact Nat.count_mono_left fun h hh hfree => fun hold => hfree ((holds_left hh).mp hold)
  · apply Nat.le_antisymm
    · exact Nat.count_mono_left fun h hh hfree => fun hold => hfree ((holds_right hh).mpr hold)
    · exact Nat.count_mono_left fun h hh hfree => fun hold => hfree ((holds_right hh).mp hold)

/-- **`TRIECountFree` counts the values that the trie does not hold.** -/
theorem trieCountFree_eq {t : Trie} {d : Nat} (ht : t.Wf d) (hnode : t.isNull = false) :
    trieCountFree t d = freeValues t d := by
  induction d generalizing t with
  | zero =>
      cases t with
      | null => cases hnode
      | node left right isLeaf hasFree =>
          cases isLeaf <;> rfl
  | succ d ih =>
      -- a missing subtree is counted by its size, any other one by its own count
      have hchild : ∀ x, (if (t.child x).isNull then 1 <<< d else trieCountFree (t.child x) d) =
          freeValues (t.child x) d := by
        intro x
        cases hnull : (t.child x).isNull with
        | true => rw [Trie.isNull_iff.mp hnull, if_pos rfl, freeValues_null]
        | false => rw [if_neg (by simp), ih (ht.child x) hnull]
      cases t with
      | null => cases hnode
      | node left right isLeaf hasFree =>
          obtain ⟨rfl, -, -, -⟩ := ht
          rw [freeValues_succ, ← hchild false, ← hchild true]
          rfl

/-! ## The manager's count -/

/-- The hosts that are neither reserved nor allocated. -/
def Dhcp.freeHosts (dhcp : Dhcp) : Finset Nat :=
  (Finset.range (2 ^ dhcp.depth)).filter fun h =>
    isReservedHost h dhcp.depth = false ∧ ¬ dhcp.Allocated h

/-- The reserved hosts are allocated, so the trie counts the free ones. -/
theorem Dhcp.Wf.card_freeHosts {netip : Ipv4} {mask : Nat} {dhcp : Dhcp}
    (hd : dhcp.Wf netip mask) : dhcp.freeHosts.card = trieCountFree dhcp.trie dhcp.depth := by
  rw [trieCountFree_eq hd.trie hd.node, freeValues, Nat.count_eq_card_filter_range,
    Dhcp.freeHosts]
  congr 1
  apply Finset.filter_congr
  intro h _
  exact and_iff_right_of_imp hd.not_reserved

/-- A pool is full when no host is free. -/
theorem Dhcp.card_freeHosts_eq_zero {dhcp : Dhcp} : dhcp.freeHosts.card = 0 ↔ dhcp.Full := by
  rw [Finset.card_eq_zero, Dhcp.freeHosts, Finset.filter_eq_empty_iff, Dhcp.Full]
  constructor
  · intro hnone h hh hreserved
    exact Decidable.not_not.mp fun hfree =>
      hnone (Finset.mem_range.mpr hh) ⟨hreserved, hfree⟩
  · rintro hfull h hh ⟨hreserved, hfree⟩
    exact hfree (hfull h (Finset.mem_range.mp hh) hreserved)

/-- **When the count is right**: in a reachable manager `DHCPCountFree` is the number of
free hosts exactly if no host is free. -/
theorem dhcpCountFree_exact {netip : Ipv4} {mask : Nat} (hlow : 2 ≤ mask) (hhigh : mask ≤ 30)
    {dhcp : Dhcp} (hreached : (dhcpMachine netip mask).Reached dhcp) :
    dhcpCountFree dhcp = dhcp.freeHosts.card ↔ dhcp.Full := by
  have hd := dhcpMachine_wf hlow hhigh hreached
  rw [← Dhcp.card_freeHosts_eq_zero, dhcpCountFree, ← hd.card_freeHosts, RESERVED_IP_COUNT]
  -- three too low, or zero
  split <;> omega

/-- A new manager counts two free hosts where there are five. -/
theorem dhcpCountFree_tooLow :
    ¬ ∀ (netip : Ipv4) (mask : Nat), 2 ≤ mask → mask ≤ 30 →
      ∀ dhcp, (dhcpMachine netip mask).Reached dhcp →
        dhcpCountFree dhcp = dhcp.freeHosts.card := by
  intro hclaim
  have hcount := hclaim sampleNet 29 (by decide) (by decide) sampleDhcp
    (.start ⟨memory, sample_start.1⟩)
  revert hcount
  decide +kernel

/-- The count of a new manager. -/
theorem dhcpCountFree_exact_sample :
    dhcpCountFree sampleDhcp = sampleDhcp.freeHosts.card ↔ sampleDhcp.Full :=
  dhcpCountFree_exact (by decide) (by decide) (.start ⟨memory, sample_start.1⟩)

/-!
## The answers of the trie

`TRIESearch` and `TRIECountFree` over all runs of `TRIEInsert` and `TRIEFree`, also
those in which memory runs out.  The count is the number of the values that the search
reports absent.  Freeing a value that is present makes it absent and changes no other
answer; freeing an absent one changes nothing.  The nodes that an insertion has created
stay when its value is freed, but no answer depends on them.
-/

/-! ## The count -/

/-- The values below `2 ^ d` that `TRIESearch` reports absent. -/
def absentValues (t : Trie) (d : Nat) : Finset Nat :=
  (Finset.range (2 ^ d)).filter fun h => trieSearch t h d = false

/-- The trie's count is that of the absent values. -/
theorem trieCountFree_eq_card {t : Trie} {d : Nat} (ht : t.Wf d) (hnode : t.isNull = false) :
    trieCountFree t d = (absentValues t d).card := by
  rw [trieCountFree_eq ht hnode, freeValues, Nat.count_eq_card_filter_range, absentValues]
  congr 1
  apply Finset.filter_congr
  intro h _
  exact (trieSearch_eq_false hnode h d).symm

/-- Tries with the same answers have the same count. -/
theorem trieCountFree_congr {t t' : Trie} {d : Nat} (ht : t.Wf d) (hnode : t.isNull = false)
    (ht' : t'.Wf d) (hnode' : t'.isNull = false) (hsame : ∀ k < 2 ^ d, SameAnswer d t t' k) :
    trieCountFree t' d = trieCountFree t d := by
  rw [trieCountFree_eq_card ht hnode, trieCountFree_eq_card ht' hnode', absentValues,
    absentValues]
  congr 1
  apply Finset.filter_congr
  intro k hk
  rw [hsame k (Finset.mem_range.mp hk)]

/-- **`TRIECountFree` is exact**: in every reachable trie it is the number of the values
that `TRIESearch` reports absent. -/
theorem trieCountFree_exact {d : Nat} (_hlow : 1 ≤ d) (_hhigh : d ≤ 31) {t : Trie}
    (hreached : (trieCallMachine d).Reached t) :
    trieCountFree t d = (absentValues t d).card := by
  obtain ⟨ht, hnode⟩ := trieCallMachine_wf hreached
  exact trieCountFree_eq_card ht hnode

/-- A trie of depth 3 in which 4 is inserted, and freed after memory has run out for 1. -/
def sampleTrie : Trie :=
  ((Trie.empty.call 3 (.insert trieMemory 4)).call 3 (.insert (fun b => b == 1) 1)).call 3
    (.free 4)

/-- The sample is reachable. -/
theorem sampleTrie_reached : (trieCallMachine 3).Reached sampleTrie := by
  have hstart : (trieCallMachine 3).Reached .empty := .start rfl
  have hinserted := hstart.step (a := .insert trieMemory 4) trivial rfl
  have hfailed := hinserted.step (a := .insert (fun b => b == 1) 1) trivial rfl
  exact hfailed.step (a := .free 4) trivial rfl

/-- The count of the sample. -/
theorem trieCountFree_exact_sample :
    trieCountFree sampleTrie 3 = (absentValues sampleTrie 3).card :=
  trieCountFree_exact (by decide) (by decide) sampleTrie_reached

/-! ## Freeing -/

/-- `TRIEFree` knows three answers. -/
theorem trieFree_status (t : Trie) (h d : Nat) :
    (trieFree t h d).2 = .TRIE_SUCCESS ∨ (trieFree t h d).2 = .TRIE_IP_NOT_FOUND ∨
      (trieFree t h d).2 = .TRIE_DOUBLE_FREE := by
  rw [trieFree]
  split
  · exact Or.inr (Or.inl rfl)
  · split
    · exact Or.inr (Or.inr rfl)
    · exact Or.inl rfl

/-- What `TRIEFree` must do with `h`, as seen by `TRIESearch` and `TRIECountFree`. -/
structure FreeExact (d : Nat) (t : Trie) (h : Nat) (result : Trie × TrieStatus) : Prop where
  granted : result.2 = .TRIE_SUCCESS ↔ trieSearch t h d = true
  removed : result.2 = .TRIE_SUCCESS →
    trieSearch result.1 h d = false ∧ ∀ k < 2 ^ d, k ≠ h → SameAnswer d t result.1 k
  refused : result.2 ≠ .TRIE_SUCCESS →
    (result.2 = .TRIE_IP_NOT_FOUND ∨ result.2 = .TRIE_DOUBLE_FREE) ∧
      (∀ k < 2 ^ d, SameAnswer d t result.1 k) ∧
        trieCountFree result.1 d = trieCountFree t d

/-- What is seen of a release. -/
theorem search_release {t : Trie} {d h : Nat} (hnode : t.isNull = false) (hh : h < 2 ^ d) :
    trieSearch (release d h t) h d = false ∧
      ∀ k < 2 ^ d, k ≠ h → SameAnswer d t (release d h t) k := by
  have hnode' := (isNull_release d h t).trans hnode
  refine ⟨?_, fun k hk hne => ?_⟩
  · rw [trieSearch_eq_false hnode', holds_release hh hh]
    exact fun hheld => hheld.1 rfl
  -- a release takes the value itself and no other
  · rw [SameAnswer, Bool.eq_iff_iff, trieSearch_eq_true hnode', trieSearch_eq_true hnode,
      holds_release hh hk]
    exact and_iff_right hne

/-- A free value that is occupied and released again leaves every answer as it was. -/
theorem sameAnswer_release_occupy {t : Trie} {d x k : Nat} (hnode : t.isNull = false)
    (hx : x < 2 ^ d) (hfree : ¬ Holds t d x) (hk : k < 2 ^ d) :
    SameAnswer d t (release d x (occupy d x t)) k := by
  have hnode' : (release d x (occupy d x t)).isNull = false :=
    (isNull_release d x _).trans (isNull_occupy d x t)
  rw [SameAnswer, Bool.eq_iff_iff, trieSearch_eq_true hnode', trieSearch_eq_true hnode,
    holds_release hx hk, holds_occupy hx hk]
  constructor
  · rintro ⟨hne, rfl | hheld⟩
    · exact absurd rfl hne
    · exact hheld
  · intro hheld
    exact ⟨fun hsame => hfree (hsame ▸ hheld), Or.inr hheld⟩

/-- `TRIEFree` is exact in a well-formed trie. -/
theorem freeExact {t : Trie} {d h : Nat} (ht : t.Wf d) (hnode : t.isNull = false)
    (hh : h < 2 ^ d) : FreeExact d t h (trieFree t h d) := by
  have hstatus := trieFree_status t h d
  rcases trieFree_spec ht hnode h with ⟨hheld, hfree⟩ | ⟨hfree, status, hrefused, hkept⟩
  · rw [hfree]
    exact ⟨iff_of_true rfl ((trieSearch_eq_true hnode h d).mpr hheld),
      fun _ => search_release hnode hh, fun hne => absurd rfl hne⟩
  -- a refused release returns the trie it was given
  · rw [hkept] at hstatus ⊢
    have habsent : ¬ trieSearch t h d = true := fun hheld =>
      hfree ((trieSearch_eq_true hnode h d).mp hheld)
    exact ⟨iff_of_false hrefused habsent, fun hsuccess => absurd hsuccess hrefused,
      fun _ => ⟨hstatus.resolve_left hrefused, fun _ _ => rfl, rfl⟩⟩

/-- What an insertion and a `TRIEFree` of the value that it allocated leave. -/
structure FreeUndoes (d : Nat) (t : Trie) (result : Trie × TrieStatus) : Prop where
  granted : result.2 = .TRIE_SUCCESS
  answers : ∀ k < 2 ^ d, SameAnswer d t result.1 k
  count : trieCountFree result.1 d = trieCountFree t d

/-- Freeing the value that an insertion allocated undoes the insertion. -/
theorem freeUndoes {malloc : Nat → Bool} {t : Trie} {d requested x : Nat} (ht : t.Wf d)
    (hnode : t.isNull = false) (hrequested : requested < 2 ^ d)
    (hallocated : (trieInsert malloc t requested d).allocatedIp = some x) :
    FreeUndoes d t (trieFree (trieInsert malloc t requested d).trie x d) := by
  have hcase := trieInsert_cases malloc ht hnode requested
  generalize trieInsert malloc t requested d = result at hcase hallocated ⊢
  cases hcase with
  | outOfMemory _ _ _ => cases hallocated
  | unavailable _ => cases hallocated
  | @inserted y hy _ =>
      -- the value was free before, so that the release leaves what was there
      obtain rfl : y = x := Option.some.inj hallocated
      have hlt := hy.lt (Nat.le_refl d) hrequested
      have hwf := occupy_wf y ht
      have hnode' := isNull_occupy d y t
      have hheld : Holds (occupy d y t) d y := (holds_occupy hlt hlt t).mpr (Or.inl rfl)
      have hanswers := fun k => sameAnswer_release_occupy (k := k) hnode hlt hy.free_end
      rcases trieFree_spec hwf hnode' y with ⟨-, hfree⟩ | ⟨hfree, -⟩
      · rw [hfree]
        exact ⟨rfl, hanswers, trieCountFree_congr ht hnode (release_wf y hwf)
          ((isNull_release d y _).trans hnode') hanswers⟩
      · exact absurd hheld hfree

/-- **`TRIEFree` removes exactly one value**: in every reachable trie it succeeds exactly
for a value that is present, which becomes absent while no other answer changes; it
refuses any other value and changes no answer; and freeing the value that an insertion
allocated restores every answer and the count. -/
theorem trieFree_exact {d : Nat} (_hlow : 1 ≤ d) (_hhigh : d ≤ 31) {t : Trie}
    (hreached : (trieCallMachine d).Reached t) :
    (∀ h < 2 ^ d, FreeExact d t h (trieFree t h d)) ∧
      ∀ malloc, ∀ requested < 2 ^ d, ∀ x,
        (trieInsert malloc t requested d).allocatedIp = some x →
          FreeUndoes d t (trieFree (trieInsert malloc t requested d).trie x d) := by
  obtain ⟨ht, hnode⟩ := trieCallMachine_wf hreached
  exact ⟨fun h hh => freeExact ht hnode hh,
    fun malloc requested hrequested x hallocated => freeUndoes ht hnode hrequested hallocated⟩

/-- Freeing in the sample. -/
theorem trieFree_exact_sample :
    (∀ h < 2 ^ 3, FreeExact 3 sampleTrie h (trieFree sampleTrie h 3)) ∧
      ∀ malloc, ∀ requested < 2 ^ 3, ∀ x,
        (trieInsert malloc sampleTrie requested 3).allocatedIp = some x →
          FreeUndoes 3 sampleTrie
            (trieFree (trieInsert malloc sampleTrie requested 3).trie x 3) :=
  trieFree_exact (by decide) (by decide) sampleTrie_reached

end Dhcp
end InfinityLabs
