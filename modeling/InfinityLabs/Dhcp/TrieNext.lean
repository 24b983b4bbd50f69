import InfinityLabs.Dhcp.TrieRuns
import Mathlib.Order.Bounds.Basic

/-!
# The next free value

An insertion of a taken value looks for another one in the right subtrees that exist
along the path of the value.  A missing subtree is no pivot, although all its values are
free; and a value that is found has all the bits of the requested one.  So the search
comes to the next free value only at the lowest clear bit: where the right subtree there
exists, the value with this bit set is free, and everything between is taken.
-/

namespace InfinityLabs
namespace Dhcp

open Lib

/-! ## What falling back to the next free value means -/

/-- The values greater than `requested` that `TRIESearch` reports absent. -/
def freeAfter (t : Trie) (d requested : Nat) : Set Nat :=
  {x | requested < x ∧ x < 2 ^ d ∧ trieSearch t x d = false}

/-- The insertion of a taken value allocates the least free value that is greater, and
reports that none is available only if there is none. -/
structure FallsBack (d : Nat) (t : Trie) (requested : Nat) (result : Insertion) : Prop where
  allocates : (freeAfter t d requested).Nonempty →
    result.status = .TRIE_IP_OCCUPIED_ALLOCATED_ANOTHER ∧
      ∃ x, result.allocatedIp = some x ∧ IsLeast (freeAfter t d requested) x ∧
        trieSearch result.trie x d = true
  unavailable : result.status = .TRIE_NO_IP_AVAILABLE → freeAfter t d requested = ∅

/-- Bit `z` is the lowest clear bit of `h`, its right subtree exists in the trie, the
value with this bit set is free, and everything between is taken. -/
structure NextAt (t : Trie) (d h z : Nat) : Prop where
  lt : z < d
  low : ∀ i < z, h.testBit i = true
  pivot : PivotAt t d h z
  free : ¬ Holds t d (h ||| 1 <<< z)
  taken : ∀ k, h < k → k < h ||| 1 <<< z → Holds t d k

/-! ## Where the probes end -/

/-- A host that is held has all the nodes of its path. -/
theorem isNull_take_of_holds {t : Trie} {d h : Nat} (hheld : Holds t d h) (n : Nat) :
    (t.deref ((pathOf d h).take n)).isNull = false := by
  apply Trie.isNull_of_deref (p := (pathOf d h).drop n)
  rw [← Trie.deref_append, List.take_append_drop]
  rw [Holds] at hheld
  cases hnode : t.deref (pathOf d h) with
  | null =>
      rw [hnode] at hheld
      cases hheld
  | node left right isLeaf hasFree => rfl

/-- At the lowest clear bit there is a pivot where the successor is held. -/
theorem pivotAt_of_holds_succ {t : Trie} {d h z : Nat} (hclear : h.testBit z = false)
    (hlow : ∀ i < z, h.testBit i = true) (hheld : Holds t d (h + 1)) : PivotAt t d h z := by
  refine ⟨hclear, ?_⟩
  rw [← take_pathOf_congr fun i hi => testBit_succ_of_lowestClear hclear hlow hi]
  exact isNull_take_of_holds hheld (d - z)

/-- The pivot at the lowest clear bit is the lowest pivot. -/
theorem NextAt.lowestPivot {t : Trie} {d h z : Nat} (hz : NextAt t d h z) :
    LowestPivot t d d h z := by
  refine ⟨hz.lt, hz.pivot, fun c hc hpivot => ?_⟩
  have hset := hpivot.1.symm.trans (hz.low c hc)
  cases hset

/-- Setting a clear bit makes a greater number. -/
theorem lt_or_one_shiftLeft {h b : Nat} (hclear : h.testBit b = false) :
    h < h ||| 1 <<< b := by
  apply Nat.lt_of_le_of_ne Nat.left_le_or
  intro hsame
  have hset := testBit_or_one_shiftLeft h b b
  rw [← hsame, hclear] at hset
  simp at hset

/-- The probes of a taken value that has a next value at its lowest clear bit end there. -/
theorem NextAt.probes {t : Trie} {d h z : Nat} (hz : NextAt t d h z)
    (htaken : Holds t d h) : Probes t d d h (h ||| 1 <<< z) :=
  .next htaken hz.lowestPivot (.free hz.free)

/-- Probes that end at the least free value that is greater end at the lowest clear bit. -/
theorem nextAt_of_probes {t : Trie} {d h x : Nat} (hx : Probes t d d h x)
    (htaken : Holds t d h) (hlt : x < 2 ^ d)
    (hleast : ∀ k, h < k → k < x → Holds t d k) : ∃ z, NextAt t d h z := by
  cases hx with
  | free hfree => exact absurd htaken hfree
  | @next _ _ b _ _ hpivot hrest =>
      -- a taken value makes the search set its lowest pivot `b` and go on from there
      have hbx := hrest.le
      have hhb := lt_or_one_shiftLeft hpivot.2.1.1
      obtain ⟨z, hzd, hclear, hlow⟩ := exists_lowestClear (d := d) (h := h) (by omega)
      have hzb : z ≤ b := Nat.le_of_not_lt fun hlt => by
        have hset := hpivot.2.1.1.symm.trans (hlow b hlt)
        cases hset
      rcases Nat.eq_or_lt_of_le hzb with rfl | hzb
      · -- below the pivot all bits are set, so the search ends at the first value
        cases hrest with
        | free hfree => exact ⟨z, hzd, hlow, hpivot.2.1, hfree, hleast⟩
        | @next _ _ c _ _ hpivot' _ =>
            have hc := hpivot'.2.1.1
            have hcz := hpivot'.1
            rw [testBit_or_one_shiftLeft, Bool.or_eq_false_iff] at hc
            have hne : z ≠ c := of_decide_eq_false hc.2
            have hset := hc.1.symm.trans (hlow c (by omega))
            cases hset
      · -- a higher pivot jumps over the successor, which is held and so a lower pivot
        have hne : h + 1 ≠ h ||| 1 <<< b := by
          intro hsame
          have hbit := testBit_succ_of_lowestClear hclear hlow (Nat.le_refl z)
          rw [hsame, testBit_or_one_shiftLeft, testBit_or_one_shiftLeft, hclear] at hbit
          simp [Nat.ne_of_gt hzb] at hbit
        have hheld : Holds t d (h + 1) := hleast (h + 1) (by omega) (by omega)
        exact absurd (pivotAt_of_holds_succ hclear hlow hheld) (hpivot.2.2 z hzb)

/-! ## The fallback and its condition -/

/-- The free values after a taken one. -/
theorem mem_freeAfter {t : Trie} {d requested x : Nat} (hnode : t.isNull = false) :
    x ∈ freeAfter t d requested ↔ requested < x ∧ x < 2 ^ d ∧ ¬ Holds t d x := by
  rw [freeAfter, Set.mem_ofPred_eq, trieSearch_eq_false hnode]

/-- **When an insertion falls back to the next free value**: exactly if no greater value
is free, or the next one is at the lowest clear bit of the requested value. -/
theorem trieInsert_fallsBack_iff {d : Nat} (_hlow : 1 ≤ d) (_hhigh : d ≤ 31) {t : Trie}
    (hreached : (trieCallMachine d).Reached t) {requested : Nat} (hrequested : requested < 2 ^ d)
    (htaken : trieSearch t requested d = true) :
    FallsBack d t requested (trieInsert trieMemory t requested d) ↔
      freeAfter t d requested = ∅ ∨ ∃ z, NextAt t d requested z := by
  obtain ⟨ht, hnode⟩ := trieCallMachine_wf hreached
  rw [trieSearch_eq_true hnode] at htaken
  have hinsert := trieInsert_spec (fun _ => rfl : ∀ b, trieMemory b = true) ht hnode requested
  constructor
  · intro hfalls
    refine or_iff_not_imp_left.mpr fun hsome => ?_
    obtain ⟨-, x, hallocated, hleast, -⟩ :=
      hfalls.allocates (Set.nonempty_iff_ne_empty.mpr hsome)
    rcases hinsert with ⟨y, hy, hresult⟩ | ⟨-, hresult⟩
    · rw [hresult] at hallocated
      obtain rfl : y = x := Option.some.inj hallocated
      have hlt := hy.lt (Nat.le_refl d) hrequested
      refine nextAt_of_probes hy htaken hlt fun k hk hkx => ?_
      -- a free value below `y` would be the least one
      by_contra hfree
      have hle := hleast.2 ((mem_freeAfter hnode).mpr ⟨hk, by omega, hfree⟩)
      omega
    · rw [hresult] at hallocated
      cases hallocated
  · rintro (hnone | ⟨z, hz⟩)
    · exact ⟨fun hsome => absurd hnone hsome.ne_empty, fun _ => hnone⟩
    -- the probes are determined, so those of the search are these
    · have hprobes := hz.probes htaken
      rcases hinsert with ⟨y, hy, hresult⟩ | ⟨hnone, -⟩
      · obtain rfl := hy.unique hprobes
        have hlt := hy.lt (Nat.le_refl d) hrequested
        rw [hresult]
        have hstatus : insertStatus requested (requested ||| 1 <<< z) =
            .TRIE_IP_OCCUPIED_ALLOCATED_ANOTHER :=
          if_neg (hy.ne_of_taken htaken)
        refine ⟨fun _ => ⟨hstatus, _, rfl, ⟨?_, ?_⟩, ?_⟩, fun hnone => ?_⟩
        · exact (mem_freeAfter hnode).mpr
            ⟨lt_or_one_shiftLeft hz.pivot.1, hlt, hy.free_end⟩
        · intro k hk
          obtain ⟨hgreater, -, hfree⟩ := (mem_freeAfter hnode).mp hk
          exact Nat.le_of_not_lt fun hkx => hfree (hz.taken k hgreater hkx)
        · rw [trieSearch_eq_true (isNull_occupy _ _ _)]
          exact (holds_occupy hlt hlt t).mpr (Or.inl rfl)
        · have hboth := hstatus.symm.trans hnone
          cases hboth
      · exact absurd hprobes (hnone _)

/-- A trie of depth 1 that holds 0. -/
def zeroTaken : Trie :=
  Trie.empty.call 1 (.insert trieMemory 0)

/-- The trie that holds 0 is reachable. -/
theorem zeroTaken_reached : (trieCallMachine 1).Reached zeroTaken := by
  have hstart : (trieCallMachine 1).Reached .empty := .start rfl
  exact hstart.step (a := .insert trieMemory 0) trivial rfl

/-- In this trie 1 is free, but an insertion of 0 finds no value. -/
theorem trieInsert_fallsBack_fails :
    ¬ ∀ d, 1 ≤ d → d ≤ 31 → ∀ t, (trieCallMachine d).Reached t → ∀ requested < 2 ^ d,
      trieSearch t requested d = true →
        FallsBack d t requested (trieInsert trieMemory t requested d) := by
  intro hclaim
  have htaken : trieSearch zeroTaken 0 1 = true := by decide +kernel
  have hfalls := hclaim 1 (by decide) (by decide) zeroTaken zeroTaken_reached 0 (by decide) htaken
  have hone : 1 ∈ freeAfter zeroTaken 1 0 := ⟨by decide, by decide, by decide +kernel⟩
  have hstatus := (hfalls.allocates ⟨1, hone⟩).1
  revert hstatus
  decide +kernel

/-- The condition in this trie. -/
theorem trieInsert_fallsBack_iff_sample :
    FallsBack 1 zeroTaken 0 (trieInsert trieMemory zeroTaken 0 1) ↔
      freeAfter zeroTaken 1 0 = ∅ ∨ ∃ z, NextAt zeroTaken 1 0 z :=
  trieInsert_fallsBack_iff (by decide) (by decide) zeroTaken_reached (by decide)
    (by decide +kernel)

end Dhcp
end InfinityLabs
