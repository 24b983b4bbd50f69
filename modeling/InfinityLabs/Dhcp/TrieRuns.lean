import InfinityLabs.Lib.Runs
import InfinityLabs.Dhcp.DhcpRuns

/-!
# Runs of the trie

`TRIEInsert` and `TRIEFree` in any order on a trie of one depth, with memory.  An
insertion changes the answer of `TRIESearch` for the value that it writes to the
output and for no other one, and says by its status whether this is the requested
value.
-/

namespace InfinityLabs
namespace Dhcp

open Lib

/-! ## The machine -/

/-- Every call of `malloc` succeeds. -/
def trieMemory : Nat → Bool := fun _ => true

/-- The calls on a trie. -/
inductive TrieAction where
  | insert (requested : Nat)
  | free (ipAddress : Nat)
  deriving DecidableEq, Repr

/-- A call on a trie of depth `d`. -/
def Trie.step (d : Nat) (t : Trie) : TrieAction → Trie
  | .insert requested => (trieInsert trieMemory t requested d).trie
  | .free ipAddress => (trieFree t ipAddress d).1

/-- The runs that start with `TRIECreate`. -/
def trieMachine (d : Nat) : Machine Trie TrieAction where
  start t := t = .empty
  step t a := some (t.step d a)

/-- The calls on a trie when memory can run out: an insertion comes with the answers of
`malloc`. -/
inductive TrieCall where
  | insert (malloc : Nat → Bool) (requested : Nat)
  | free (ipAddress : Nat)

/-- A call on a trie of depth `d`, whatever `malloc` answers. -/
def Trie.call (d : Nat) (t : Trie) : TrieCall → Trie
  | .insert malloc requested => (trieInsert malloc t requested d).trie
  | .free ipAddress => (trieFree t ipAddress d).1

/-- The runs that start with `TRIECreate` and can run out of memory. -/
def trieCallMachine (d : Nat) : Machine Trie TrieCall where
  start t := t = .empty
  step t a := some (t.call d a)

/-- A call keeps the shape. -/
theorem Trie.wf_call {d : Nat} {t : Trie} (ht : t.Wf d) (hnode : t.isNull = false)
    (a : TrieCall) : (t.call d a).Wf d ∧ (t.call d a).isNull = false := by
  cases a with
  | insert malloc requested =>
      have hcase := trieInsert_cases malloc ht hnode requested
      rw [Trie.call]
      generalize trieInsert malloc t requested d = result at hcase ⊢
      cases hcase with
      | inserted _ _ => exact ⟨occupy_wf _ ht, isNull_occupy _ _ _⟩
      | outOfMemory _ _ hsame => exact ⟨hsame.wf, hsame.node⟩
      | unavailable _ => exact ⟨ht, hnode⟩
  | free ipAddress =>
      rw [Trie.call]
      rcases trieFree_spec ht hnode ipAddress with ⟨-, hfree⟩ | ⟨-, status, -, hfree⟩
      · rw [hfree]
        exact ⟨release_wf ipAddress ht, (isNull_release _ _ _).trans hnode⟩
      · rw [hfree]
        exact ⟨ht, hnode⟩

/-- **Every reachable trie is well-formed**, also where memory has run out. -/
theorem trieCallMachine_wf {d : Nat} {t : Trie} (hreached : (trieCallMachine d).Reached t) :
    t.Wf d ∧ t.isNull = false := by
  refine hreached.invariant (I := fun t => t.Wf d ∧ t.isNull = false) ?_ ?_
  · rintro t rfl
    exact ⟨Trie.wf_empty d, rfl⟩
  · rintro t a t' ⟨ht, hnode⟩ - hstep
    obtain rfl : t.call d a = t' := Option.some.inj hstep
    exact Trie.wf_call ht hnode a

/-- A run with memory is a run. -/
theorem trieMachine_calls {d : Nat} {t : Trie} (hreached : (trieMachine d).Reached t) :
    (trieCallMachine d).Reached t := by
  induction hreached with
  | start hstart => exact .start hstart
  | @step t t' a _ _ hstep ih =>
      cases a with
      | insert requested => exact ih.step (a := .insert trieMemory requested) trivial hstep
      | free ipAddress => exact ih.step (a := .free ipAddress) trivial hstep

/-- With memory every reachable trie is well-formed. -/
theorem trieMachine_wf {d : Nat} {t : Trie} (hreached : (trieMachine d).Reached t) :
    t.Wf d ∧ t.isNull = false :=
  trieCallMachine_wf (trieMachine_calls hreached)

/-! ## Termination -/

/-- `TRIEInsertHelper` and `FindAndAllocateNextFree`, cut off after `calls` calls of the
first. -/
def trieInsertWithin (malloc : Nat → Bool) (t : Trie) :
    Nat → Pointer → Nat → Nat → Option Insertion
  | 0, _, _, _ => none
  | calls + 1, root, requested, depth =>
      match descend t requested depth depth (Nat.le_refl depth) root [] none with
      | .missing current pathNodes remaining =>
          some (allocateAtTarget malloc t current pathNodes requested remaining)
      | .blocked none => some ⟨t, .TRIE_NO_IP_AVAILABLE, none⟩
      | .blocked (some pivot) =>
          (trieInsertWithin malloc t calls pivot.node (requested ||| 1 <<< pivot.bit)
            (pivot.bit + 1)).map fun result =>
              if result.status = .TRIE_SUCCESS then
                { result with status := .TRIE_IP_OCCUPIED_ALLOCATED_ANOTHER }
              else result
      | .target current pathNodes =>
          some ⟨trieUpdateMetadata (t.modify (Trie.setLeaf true) current) pathNodes,
            .TRIE_SUCCESS, some requested⟩

/-- No number has more clear bits below `d` than there are bits. -/
theorem zeroBits_le (h d : Nat) : zeroBits h d ≤ d := by
  induction d with
  | zero => exact Nat.le_refl 0
  | succ d ih =>
      rw [zeroBits]
      split <;> omega

/-- **The recursion ends**: each call sets a clear bit below the level of the one before,
so there is at most one call more than there are clear bits. -/
theorem trieInsertWithin_eq (malloc : Nat → Bool) (t : Trie) {calls : Nat} (root : Pointer)
    (requested depth : Nat) (hcalls : zeroBits requested depth < calls) :
    trieInsertWithin malloc t calls root requested depth =
      some (trieInsertHelper malloc t root requested depth) := by
  induction calls generalizing root requested depth with
  | zero => cases hcalls
  | succ calls ih =>
      rw [trieInsertWithin, trieInsertHelper]
      generalize descend t requested depth depth (Nat.le_refl depth) root [] none = descent
      cases descent with
      | missing current pathNodes remaining => rfl
      | target current pathNodes => rfl
      | blocked pivot =>
          cases pivot with
          | none =>
              simp only
              rw [findAndAllocateNextFree]
          | some pivot =>
              have hfewer := zeroBits_or_lt pivot.bit_lt pivot.bit_clear
              simp only
              rw [ih _ _ _ (by omega), findAndAllocateNextFree]
              rfl

/-! ## Soundness -/

/-- Probing never goes down. -/
theorem Probes.le {t : Trie} {d level h x : Nat} (hx : Probes t d level h x) : h ≤ x := by
  induction hx with
  | free _ => exact Nat.le_refl _
  | next _ _ _ ih => exact Nat.le_trans Nat.left_le_or ih

/-- `TRIESearch` answers the same for `k` in both tries. -/
def SameAnswer (d : Nat) (t t' : Trie) (k : Nat) : Prop :=
  trieSearch t' k d = trieSearch t k d

/-- What an insertion must do, as seen by `TRIESearch`. -/
structure InsertSound (d : Nat) (t : Trie) (requested : Nat) (result : Insertion) : Prop where
  changes : result.status = .TRIE_SUCCESS ∨
      result.status = .TRIE_IP_OCCUPIED_ALLOCATED_ANOTHER →
    ∃ x < 2 ^ d, result.allocatedIp = some x ∧ trieSearch t x d = false ∧
      trieSearch result.trie x d = true ∧ ∀ k < 2 ^ d, k ≠ x → SameAnswer d t result.trie k
  granted : result.status = .TRIE_SUCCESS ↔ trieSearch t requested d = false
  output : result.status = .TRIE_SUCCESS → result.allocatedIp = some requested
  greater : result.status = .TRIE_IP_OCCUPIED_ALLOCATED_ANOTHER →
    ∃ x, result.allocatedIp = some x ∧ requested < x
  unchanged : result.status ≠ .TRIE_SUCCESS →
    result.status ≠ .TRIE_IP_OCCUPIED_ALLOCATED_ANOTHER →
      ∀ k < 2 ^ d, SameAnswer d t result.trie k

/-- A value is absent where the trie does not hold it. -/
theorem trieSearch_eq_false {t : Trie} (ht : t.isNull = false) (h d : Nat) :
    trieSearch t h d = false ↔ ¬ Holds t d h := by
  rw [← trieSearch_eq_true ht, Bool.not_eq_true]

/-- An insertion that occupies the value at the end of its probes is sound. -/
theorem insertSound_inserted {t : Trie} {d requested x : Nat} (ht : t.isNull = false)
    (hrequested : requested < 2 ^ d) (hx : Probes t d d requested x) :
    InsertSound d t requested ⟨occupy d x t, insertStatus requested x, some x⟩ := by
  have hlt := hx.lt (Nat.le_refl d) hrequested
  have hnode := isNull_occupy d x t
  have hgranted : insertStatus requested x = .TRIE_SUCCESS ↔ x = requested := by
    rw [insertStatus]
    split <;> simp_all
  have hstatus : insertStatus requested x ≠ .TRIE_SUCCESS →
      insertStatus requested x = .TRIE_IP_OCCUPIED_ALLOCATED_ANOTHER := by
    rw [insertStatus]
    split <;> simp
  refine ⟨fun _ => ⟨x, hlt, rfl, ?_, ?_, fun k hk hne => ?_⟩, ?_, fun hsuccess => ?_,
    fun hanother => ⟨x, rfl, ?_⟩, fun hne hne' => absurd (hstatus hne) hne'⟩
  · exact (trieSearch_eq_false ht x d).mpr hx.free_end
  · exact (trieSearch_eq_true hnode x d).mpr ((holds_occupy hlt hlt t).mpr (Or.inl rfl))
  · rw [SameAnswer, Bool.eq_iff_iff, trieSearch_eq_true hnode, trieSearch_eq_true ht,
      holds_occupy hlt hk]
    exact or_iff_right hne
  · show insertStatus requested x = .TRIE_SUCCESS ↔ _
    rw [hgranted, trieSearch_eq_false ht]
    constructor
    · rintro rfl
      exact hx.free_end
    · exact hx.eq_of_free
  · exact congrArg some (hgranted.mp hsuccess)
  · -- another value is reached by setting bits
    have hne : x ≠ requested := fun hsame => by
      have hboth := hanother.symm.trans (hgranted.mpr hsame)
      cases hboth
    exact Nat.lt_of_le_of_ne hx.le (Ne.symm hne)

/-- **`TRIEInsert` is sound**: in every reachable trie an insertion changes the answer of
`TRIESearch` for the value that it returns and for no other one; it grants the requested
value exactly if this is absent, returns a greater one if it allocates another, and
changes no answer with any other status; and its mutual recursion ends within one call
for each bit. -/
theorem trieInsert_sound {d : Nat} (_hlow : 1 ≤ d) (_hhigh : d ≤ 31) {t : Trie}
    (hreached : (trieMachine d).Reached t) {requested : Nat} (hrequested : requested < 2 ^ d) :
    InsertSound d t requested (trieInsert trieMemory t requested d) ∧
      trieInsertWithin trieMemory t (d + 1) [] requested d =
        some (trieInsertHelper trieMemory t [] requested d) := by
  obtain ⟨ht, hnode⟩ := trieMachine_wf hreached
  refine ⟨?_, trieInsertWithin_eq _ _ _ _ _ (Nat.lt_succ_of_le (zeroBits_le requested d))⟩
  have hmalloc : ∀ b, trieMemory b = true := fun _ => rfl
  rcases trieInsert_spec hmalloc ht hnode requested with ⟨x, hx, hresult⟩ | ⟨hnone, hresult⟩
  · rw [hresult]
    exact insertSound_inserted hnode hrequested hx
  · rw [hresult]
    -- where the probes end nowhere the requested value is taken
    have htaken : Holds t d requested :=
      Decidable.not_not.mp fun hfree => hnone requested (.free hfree)
    refine ⟨by simp, ?_, by simp, by simp, fun _ _ k _ => rfl⟩
    rw [trieSearch_eq_false hnode]
    simpa using htaken

/-- In a trie of depth 3 that holds 4, an insertion of 4 is sound. -/
theorem trieInsert_sound_sample :
    InsertSound 3 (Trie.empty.step 3 (.insert 4)) 4
        (trieInsert trieMemory (Trie.empty.step 3 (.insert 4)) 4 3) ∧
      trieInsertWithin trieMemory (Trie.empty.step 3 (.insert 4)) (3 + 1) [] 4 3 =
        some (trieInsertHelper trieMemory (Trie.empty.step 3 (.insert 4)) [] 4 3) := by
  have hstart : (trieMachine 3).Reached .empty := .start rfl
  have hstep : (trieMachine 3).step .empty (.insert 4) =
      some (Trie.empty.step 3 (.insert 4)) := rfl
  exact trieInsert_sound (by decide) (by decide) (hstart.step trivial hstep) (by decide)

end Dhcp
end InfinityLabs
