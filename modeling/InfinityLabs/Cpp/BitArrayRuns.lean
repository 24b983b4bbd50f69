import InfinityLabs.Cpp.BitArrayBits
import InfinityLabs.Lib.ListParts
import Mathlib.Data.List.FinRange

/-!
# Bit arrays and plain arrays

Every call keeps the bits beyond `SIZE` clear and does to the bits below what it does to a plain
array.  The observations read the bits.
-/

namespace InfinityLabs
namespace Cpp

open Lib

variable {SIZE : Nat}

namespace BitArray

/-- The plain array of the bits. -/
def toPlain (a : BitArray SIZE) : PlainArray SIZE := fun i => a.bit i

/-- The bits beyond `SIZE` are clear. -/
def Padded (a : BitArray SIZE) : Prop := ∀ idx, SIZE ≤ idx → a.bit idx = false

/-! ## Observations -/

/-- The bit at an index of a list of words. -/
def wordsBit (words : List Word) (idx : Nat) : Bool :=
  (words[getWordIndex idx]?.getD 0).getLsbD (getBitOffset idx)

/-- The bits of the first word, and those of the others. -/
theorem countP_wordsBit_cons (word : Word) (words : List Word) :
    (List.range (BITS_PER_WORD * (words.length + 1))).countP (wordsBit (word :: words)) =
      (List.range BITS_PER_WORD).countP word.getLsbD +
        (List.range (BITS_PER_WORD * words.length)).countP (wordsBit words) := by
  have hfirst : ∀ j ∈ List.range BITS_PER_WORD,
      wordsBit (word :: words) j = true ↔ word.getLsbD j = true := by
    intro j hj
    have hlt := List.mem_range.mp hj
    rw [wordsBit, getWordIndex, Nat.div_eq_of_lt hlt, getBitOffset, Nat.mod_eq_of_lt hlt,
      List.getElem?_cons_zero, Option.getD_some]
  have hothers : wordsBit (word :: words) ∘ (BITS_PER_WORD + ·) = wordsBit words := by
    funext j
    rw [Function.comp_apply, wordsBit, getWordIndex, getBitOffset,
      Nat.add_div_left _ (by decide), Nat.add_mod_left, List.getElem?_cons_succ, wordsBit,
      getWordIndex, getBitOffset]
  rw [Nat.mul_add, Nat.mul_one, Nat.add_comm (_ * _) BITS_PER_WORD, List.range_add,
    List.countP_append, List.countP_map, hothers, List.countP_congr hfirst]

/-- The loop of `Count` adds the number of bits that are set. -/
theorem toNat_foldl_count (words : List Word) (total : Word)
    (hlt : total.toNat + (List.range (BITS_PER_WORD * words.length)).countP (wordsBit words) <
      2 ^ BITS_PER_WORD) :
    (words.foldl (fun total word => total + countBitsInWord word) total).toNat =
      total.toNat + (List.range (BITS_PER_WORD * words.length)).countP (wordsBit words) := by
  induction words generalizing total with
  | nil => rfl
  | cons word words ih =>
      rw [List.length_cons, countP_wordsBit_cons] at hlt ⊢
      have hword := toNat_countBitsInWord word
      have htotal : (total + countBitsInWord word).toNat =
          total.toNat + (List.range BITS_PER_WORD).countP word.getLsbD := by
        rw [BitVec.toNat_add, hword, Nat.mod_eq_of_lt (by omega)]
      rw [List.foldl_cons, ih _ (by omega), htotal, Nat.add_assoc]

/-- The bits that are set lie below `SIZE`. -/
theorem Padded.countP_eq {a : BitArray SIZE} (h : a.Padded) {n : Nat} (hn : SIZE ≤ n) :
    (List.range n).countP a.bit = (List.finRange SIZE).countP a.toPlain := by
  obtain ⟨k, rfl⟩ := Nat.exists_eq_add_of_le hn
  have hrest : ((List.range k).map (SIZE + ·)).countP a.bit = 0 := by
    rw [List.countP_map, List.countP_eq_zero]
    intro j _
    rw [Function.comp_apply, h _ (Nat.le_add_right _ _)]
    exact Bool.false_ne_true
  rw [List.range_add, List.countP_append, hrest, Nat.add_zero, ← List.map_coe_finRange_eq_range,
    List.countP_map]
  rfl

/-- `Count` is the number of indices that are set. -/
theorem Padded.count_eq (hSIZE : SIZE < 2 ^ 64) (hwords : 0 < NUM_WORDS SIZE) {a : BitArray SIZE}
    (h : a.Padded) : a.count.toNat = (List.finRange SIZE).countP a.toPlain := by
  have hbits : wordsBit a.bits.toList = a.bit := by
    funext idx
    rw [wordsBit, Vector.getElem?_toList, bit]
  have hcount := h.countP_eq (numWords_bounds hSIZE hwords).1
  have hle : (List.finRange SIZE).countP a.toPlain ≤ SIZE := by
    have hlength := List.countP_le_length (p := a.toPlain) (l := List.finRange SIZE)
    rwa [List.length_finRange] at hlength
  have hfold := toNat_foldl_count a.bits.toList 0
  have hzero : (0 : Word).toNat = 0 := rfl
  rw [hbits, Vector.length_toList, hcount, hzero, Nat.zero_add] at hfold
  exact hfold (Nat.lt_of_le_of_lt hle hSIZE)

/-- `operator==` compares the bits. -/
theorem equals_iff {a b : BitArray SIZE} (ha : a.Padded) (hb : b.Padded) :
    a.equals b = true ↔ a.toPlain = b.toPlain := by
  rw [equals, beq_iff_eq]
  constructor
  · intro heq
    funext i
    rw [toPlain, toPlain, bit, bit, heq]
  · intro heq
    have hab : a = b := by
      refine ext_bit ?_
      intro idx
      by_cases hidx : idx < SIZE
      case pos => exact congrFun heq ⟨idx, hidx⟩
      case neg => rw [ha idx (Nat.not_lt.mp hidx), hb idx (Nat.not_lt.mp hidx)]
    rw [hab]

/-- Flipping all bits twice changes nothing. -/
theorem Padded.flipAll_flipAll (hSIZE : SIZE < 2 ^ 64) (hwords : 0 < NUM_WORDS SIZE)
    {a : BitArray SIZE} (h : a.Padded) : a.flipAll.flipAll = a := by
  refine ext_bit ?_
  intro idx
  rw [bit_flipAll hSIZE hwords, bit_flipAll hSIZE hwords]
  by_cases hidx : idx < SIZE
  case pos => simp [hidx]
  case neg => simp [hidx, h idx (Nat.not_lt.mp hidx)]

/-- The loop of `ToString` appends the bits from the highest index down. -/
theorem showFrom_eq (hSIZE : SIZE < 2 ^ 64) (hwords : 0 < NUM_WORDS SIZE) (a : BitArray SIZE)
    {i : Nat} (hi : i ≤ SIZE) (result : List Char) :
    a.showFrom i result =
      some (result ++ (List.range i).reverse.map fun j => if a.bit j then '1' else '0') := by
  induction i generalizing result with
  | zero => simp [showFrom]
  | succ i ih =>
      rw [showFrom, getBitUnchecked_eq (getWordIndex_lt hSIZE hwords hi), Option.bind_some,
        ih (Nat.le_of_succ_le hi), List.range_succ, List.reverse_append, List.reverse_singleton,
        List.singleton_append, List.map_cons, List.append_assoc, List.singleton_append]

/-- `ToString` shows the bits, the highest index first. -/
theorem toString_eq (hSIZE : SIZE < 2 ^ 64) (hwords : 0 < NUM_WORDS SIZE) (a : BitArray SIZE) :
    a.toString =
      some ((List.finRange SIZE).reverse.map fun i => if a.toPlain i then '1' else '0') := by
  rw [toString, showFrom_eq hSIZE hwords a (Nat.le_refl _), List.nil_append,
    ← List.map_coe_finRange_eq_range, ← List.map_reverse, List.map_map]
  rfl

/-! ## Calls -/

theorem validateIndex_of_lt {idx : Nat} (h : idx < SIZE) : validateIndex SIZE idx = .ok () :=
  if_neg (Nat.not_le.mpr h)

theorem validateIndex_of_le {idx : Nat} (h : SIZE ≤ idx) :
    validateIndex SIZE idx = .error "BitArray index out of range" := if_pos h

/-- A call that validates its index goes on below `SIZE`. -/
theorem validate_of_lt {α : Type} {idx : Nat} (h : idx < SIZE) (result : α) :
    (do validateIndex SIZE idx; return result) = .ok result := by
  rw [validateIndex_of_lt h]
  rfl

/-- A call that validates its index throws beyond `SIZE`. -/
theorem validate_of_le {α : Type} {idx : Nat} (h : SIZE ≤ idx) (result : α) :
    (do validateIndex SIZE idx; return result) = .error "BitArray index out of range" := by
  rw [validateIndex_of_le h]
  rfl

/-- The call returned an array with the bits of `p`, or it threw, and `p` is the array before. -/
def Does (a : BitArray SIZE) (result : Except String (Option (BitArray SIZE)))
    (p : PlainArray SIZE) : Prop :=
  (∃ a', result = .ok (some a') ∧ a'.Padded ∧ a'.toPlain = p) ∨
    ∃ what, result = .error what ∧ p = a.toPlain

/-- A change of one bit below `SIZE` is one of the plain array. -/
theorem Padded.modify {a a' : BitArray SIZE} {idx : Nat} {g : Bool → Bool} (h : a.Padded)
    (hidx : idx < SIZE) (hbit : ∀ i, a'.bit i = if i = idx then g (a.bit i) else a.bit i) :
    a'.Padded ∧ a'.toPlain = a.toPlain.modify idx g := by
  constructor
  · intro i hi
    rw [hbit, if_neg (Nat.ne_of_gt (Nat.lt_of_lt_of_le hidx hi)), h i hi]
  · funext i
    exact hbit i

/-- An index beyond `SIZE` is none of the plain array. -/
theorem modify_of_le {p : PlainArray SIZE} {idx : Nat} (h : SIZE ≤ idx) (g : Bool → Bool) :
    p.modify idx g = p := by
  funext i
  exact if_neg (Nat.ne_of_lt (Nat.lt_of_lt_of_le i.isLt h))

/-- What is cleared beyond `SIZE` is padded. -/
theorem does_cleared {a a' : BitArray SIZE} {v : Nat → Bool}
    (hbit : ∀ i, a'.bit i = (v i && decide (i < SIZE))) :
    a.Does (.ok (some a')) fun i => v i := by
  refine Or.inl ⟨a', rfl, ?_, ?_⟩
  · intro i hi
    rw [hbit, decide_eq_false (Nat.not_lt.mpr hi), Bool.and_false]
  · funext i
    rw [toPlain, hbit, decide_eq_true i.isLt, Bool.and_true]

section Calls

variable (hSIZE : SIZE < 2 ^ 64) (hwords : 0 < NUM_WORDS SIZE) {a : BitArray SIZE} (h : a.Padded)
include hSIZE hwords h

/-- An assignment through a proxy. -/
theorem Padded.does_setBitUnchecked {idx : Nat} (hidx : idx < SIZE) (val : Bool) :
    a.Does (.ok (a.setBitUnchecked idx val)) (a.toPlain.modify idx fun _ => val) := by
  obtain ⟨a', hset, hbit⟩ :=
    exists_setBitUnchecked a (getWordIndex_lt hSIZE hwords hidx) val
  exact Or.inl ⟨a', congrArg Except.ok hset, h.modify (g := fun _ => val) hidx hbit⟩

/-- `Set` of one bit. -/
theorem Padded.does_set (idx : Nat) (val : Bool) :
    a.Does (a.set idx val) (a.toPlain.modify idx fun _ => val) := by
  by_cases hidx : idx < SIZE
  case pos =>
    have hset : a.set idx val = .ok (a.setBitUnchecked idx val) := validate_of_lt hidx _
    rw [hset]
    exact h.does_setBitUnchecked hSIZE hwords hidx val
  case neg =>
    have hle := Nat.not_lt.mp hidx
    exact Or.inr ⟨_, validate_of_le hle _, modify_of_le hle _⟩

/-- `Flip` of one bit. -/
theorem Padded.does_flip (idx : Nat) : a.Does (a.flip idx) (a.toPlain.modify idx not) := by
  by_cases hidx : idx < SIZE
  case pos =>
    obtain ⟨a', hflip, hbit⟩ := exists_flipWord a (getWordIndex_lt hSIZE hwords hidx)
    have hcall : a.flip idx = .ok (some a') := by
      rw [← hflip]
      exact validate_of_lt hidx _
    exact Or.inl ⟨a', hcall, h.modify (g := not) hidx hbit⟩
  case neg =>
    have hle := Nat.not_lt.mp hidx
    exact Or.inr ⟨_, validate_of_le hle _, modify_of_le hle _⟩

end Calls

end BitArray

/-! ## Runs -/

open BitArray

/-- The state of plain arrays. -/
def ArrayState.toPlain (s : ArrayState (BitArray SIZE)) : ArrayState (PlainArray SIZE) :=
  { arrays := s.arrays.map BitArray.toPlain
    proxies := s.proxies }

/-- The arrays are padded, and the proxies have an index below `SIZE`. -/
structure ArrayState.Sound (s : ArrayState (BitArray SIZE)) : Prop where
  padded : ∀ a ∈ s.arrays, a.Padded
  proxies : ∀ p ∈ s.proxies, p.idx < SIZE

/-- The step is the one of plain arrays, and leaves a sound state. -/
def ArrayState.Agrees (result : Option (ArrayState (BitArray SIZE)))
    (plain : Option (ArrayState (PlainArray SIZE))) : Prop :=
  result.map ArrayState.toPlain = plain ∧ ∀ s', result = some s' → s'.Sound

/-- A step that is not defined. -/
theorem agrees_none : ArrayState.Agrees (none : Option (ArrayState (BitArray SIZE))) none :=
  ⟨rfl, nofun⟩

namespace ArrayState.Sound

variable {s : ArrayState (BitArray SIZE)} (h : s.Sound)
include h

/-- A call on an array that does to its bits what is done to the plain array. -/
theorem call {arr : Nat} {f : BitArray SIZE → Except String (Option (BitArray SIZE))}
    {g : PlainArray SIZE → PlainArray SIZE}
    (hdoes : ∀ a : BitArray SIZE, a.Padded → a.Does (f a) (g a.toPlain)) :
    Agrees (s.call arr f) (PlainArray.update s.toPlain arr g) := by
  have hget : s.toPlain.arrays[arr]? = s.arrays[arr]?.map BitArray.toPlain := List.getElem?_map
  simp only [ArrayState.call, PlainArray.update, hget]
  cases harr : s.arrays[arr]? with
  | none => exact agrees_none
  | some a =>
      have hpadded := h.padded a (List.mem_of_getElem? harr)
      dsimp only [Option.bind_some, Option.map_some]
      rcases hdoes a hpadded with ⟨a', hf, hpadded', hplain⟩ | ⟨what, hf, hplain⟩
      · rw [hf, ← hplain]
        refine ⟨?_, ?_⟩
        · simp only [Option.map_some, ArrayState.toPlain, List.map_set]
        · rintro s' ⟨⟩
          exact ⟨forall_mem_set h.padded hpadded', h.proxies⟩
      · rw [harr, Option.map_some] at hget
        obtain ⟨_, hplainGet⟩ := List.getElem?_eq_some_iff.mp hget
        rw [hf, hplain, ← hplainGet]
        refine ⟨?_, ?_⟩
        · simp only [Option.map_some, List.set_getElem_self]
        · rintro s' ⟨⟩
          exact h

/-- A call on an array and another. -/
theorem callWith (hSIZE : SIZE < 2 ^ 64) (hwords : 0 < NUM_WORDS SIZE) {arr other : Nat}
    {op : Word → Word → Word} {g : Bool → Bool → Bool}
    (hop : ∀ x y j, (op x y).getLsbD j = g (x.getLsbD j) (y.getLsbD j)) :
    Agrees (s.callWith arr other fun a b => a.assignWith op b)
      (s.toPlain.callWith arr other fun p q i => g (p i) (q i)) := by
  have hget : s.toPlain.arrays[other]? = s.arrays[other]?.map BitArray.toPlain :=
    List.getElem?_map
  simp only [ArrayState.callWith, hget]
  cases s.arrays[other]? with
  | none => exact agrees_none
  | some b =>
      exact h.call (f := fun a => .ok (some (a.assignWith op b)))
        (g := fun p i => g (p i) (b.toPlain i)) fun a _ =>
          does_cleared (v := fun i => g (a.bit i) (b.bit i)) (bit_assignWith hSIZE hwords hop a b)

/-- A call through a proxy. -/
theorem callProxy {proxy : Nat}
    {f : BitProxy → BitArray SIZE → Except String (Option (BitArray SIZE))}
    {g : BitProxy → PlainArray SIZE → PlainArray SIZE}
    (hdoes : ∀ (p : BitProxy) (a : BitArray SIZE), p.idx < SIZE → a.Padded →
      a.Does (f p a) (g p a.toPlain)) :
    Agrees ((s.proxies[proxy]?).bind fun p => s.call p.arr (f p))
      ((s.toPlain.proxies[proxy]?).bind fun p => PlainArray.update s.toPlain p.arr (g p)) := by
  have hget : s.toPlain.proxies[proxy]? = s.proxies[proxy]? := rfl
  rw [hget]
  cases hproxy : s.proxies[proxy]? with
  | none => exact agrees_none
  | some p =>
      have hidx := h.proxies p (List.mem_of_getElem? hproxy)
      exact h.call fun a => hdoes p a hidx

/-- Every call does to the bits what it does to plain arrays. -/
theorem step (hSIZE : SIZE < 2 ^ 64) (hwords : 0 < NUM_WORDS SIZE) (action : BitArrayAction) :
    Agrees (BitArray.step s action) (PlainArray.step s.toPlain action) := by
  cases action with
  | construct =>
      refine ⟨?_, ?_⟩
      · have hplain : (construct SIZE).toPlain = fun _ => false := by
          funext i
          exact bit_construct SIZE i
        simp only [BitArray.step, PlainArray.step, Option.map_some, ArrayState.toPlain,
          List.map_append, List.map_cons, List.map_nil, hplain]
      · rintro s' ⟨⟩
        exact ⟨forall_mem_concat h.padded fun i _ => bit_construct SIZE i, h.proxies⟩
  | set arr idx val => exact h.call fun a hpadded => hpadded.does_set hSIZE hwords idx val
  | setAll arr val =>
      exact h.call (f := fun _ => .ok (some (setAll SIZE val))) (g := fun _ _ => val) fun a _ =>
        does_cleared (v := fun _ => val) (bit_setAll hSIZE hwords val)
  | flip arr idx => exact h.call fun a hpadded => hpadded.does_flip hSIZE hwords idx
  | flipAll arr =>
      exact h.call (f := fun a => .ok (some a.flipAll)) (g := fun p i => !p i) fun a _ =>
        does_cleared (v := fun i => !a.bit i) (bit_flipAll hSIZE hwords a)
  | orAssign arr other => exact h.callWith hSIZE hwords fun _ _ _ => BitVec.getLsbD_or
  | andAssign arr other => exact h.callWith hSIZE hwords fun _ _ _ => BitVec.getLsbD_and
  | xorAssign arr other => exact h.callWith hSIZE hwords fun _ _ _ => BitVec.getLsbD_xor
  | index arr idx =>
      have hget : s.toPlain.arrays[arr]? = s.arrays[arr]?.map BitArray.toPlain :=
        List.getElem?_map
      simp only [BitArray.step, PlainArray.step, hget]
      cases s.arrays[arr]? with
      | none => exact agrees_none
      | some a =>
          simp only [Option.map_some]
          by_cases hidx : idx < SIZE
          case pos =>
            rw [validateIndex_of_lt hidx, if_pos hidx]
            refine ⟨rfl, ?_⟩
            rintro s' ⟨⟩
            exact ⟨h.padded, forall_mem_concat h.proxies hidx⟩
          case neg =>
            rw [validateIndex_of_le (Nat.not_lt.mp hidx), if_neg hidx]
            refine ⟨rfl, ?_⟩
            rintro s' ⟨⟩
            exact h
  | assign proxy val =>
      exact h.callProxy fun p a hidx hpadded =>
        hpadded.does_setBitUnchecked hSIZE hwords hidx val
  | copy proxy other =>
      have hgetProxy : s.toPlain.proxies[other]? = s.proxies[other]? := rfl
      simp only [BitArray.step, PlainArray.step, hgetProxy]
      cases hother : s.proxies[other]? with
      | none => exact agrees_none
      | some q =>
          have hidx := h.proxies q (List.mem_of_getElem? hother)
          have hget : s.toPlain.arrays[q.arr]? = s.arrays[q.arr]?.map BitArray.toPlain :=
            List.getElem?_map
          simp only [Option.bind_eq_bind, Option.bind_some, hget, hidx, dif_pos]
          cases s.arrays[q.arr]? with
          | none => exact agrees_none
          | some b =>
              simp only [Option.bind_some, Option.map_some,
                getBitUnchecked_eq (getWordIndex_lt hSIZE hwords hidx)]
              exact h.callProxy fun p a hidx hpadded =>
                hpadded.does_setBitUnchecked hSIZE hwords hidx _
  | flipProxy proxy => exact h.callProxy fun p a _ hpadded => hpadded.does_flip hSIZE hwords p.idx

end ArrayState.Sound

/-- The observations of an array are those of a plain array. -/
structure BitArray.IsPlain (a : BitArray SIZE) (p : PlainArray SIZE) : Prop where
  get : ∀ i : Fin SIZE, a.get i = .ok (some (p i))
  get_throws : ∀ idx, SIZE ≤ idx → a.get idx = .error "BitArray index out of range"
  padding : ∀ idx, SIZE ≤ idx → idx < BITS_PER_WORD * NUM_WORDS SIZE →
    a.getBitUnchecked idx = some false
  count : a.count.toNat = (List.finRange SIZE).countP p
  flipAll : a.flipAll.flipAll = a
  toString : a.toString = some ((List.finRange SIZE).reverse.map fun i => if p i then '1' else '0')

/-- What a padded array shows. -/
theorem BitArray.Padded.isPlain (hSIZE : SIZE < 2 ^ 64) (hwords : 0 < NUM_WORDS SIZE)
    {a : BitArray SIZE} (h : a.Padded) : a.IsPlain a.toPlain where
  get i := by
    have hget : a.get i = .ok (a.getBitUnchecked i) := validate_of_lt i.isLt _
    rw [hget, getBitUnchecked_eq (getWordIndex_lt hSIZE hwords i.isLt), toPlain]
  get_throws _ hle := validate_of_le hle _
  padding idx hle hlt := by
    have hword : getWordIndex idx < NUM_WORDS SIZE := by
      rwa [getWordIndex, Nat.div_lt_iff_lt_mul (by decide), Nat.mul_comm]
    rw [getBitUnchecked_eq hword, h idx hle]
  count := h.count_eq hSIZE hwords
  flipAll := h.flipAll_flipAll hSIZE hwords
  toString := toString_eq hSIZE hwords a

/-- A program does with bit arrays what it does with plain arrays of `SIZE` booleans, and each of
them shows what the plain array does; two are equal if the plain arrays are. -/
theorem bitArray_agrees (hSIZE : SIZE < 2 ^ 64) (hwords : 0 < NUM_WORDS SIZE)
    (labels : List BitArrayAction) :
    ((bitArrayMachine SIZE).run ⟨[], []⟩ labels).map ArrayState.toPlain =
        (plainMachine SIZE).run ⟨[], []⟩ labels ∧
      ∀ s, (bitArrayMachine SIZE).run ⟨[], []⟩ labels = some s →
        ∀ a ∈ s.arrays, a.IsPlain a.toPlain ∧
          ∀ b ∈ s.arrays, a.equals b = true ↔ a.toPlain = b.toPlain := by
  have hnew : ArrayState.Sound (⟨[], []⟩ : ArrayState (BitArray SIZE)) := ⟨nofun, nofun⟩
  refine ⟨?_, ?_⟩
  · exact Machine.run_map_eq (M := bitArrayMachine SIZE) (N := plainMachine SIZE)
      (fun s action hs => (hs.step hSIZE hwords action).1)
      (fun s action s' hs => (hs.step hSIZE hwords action).2 s') hnew labels
  · intro s hrun a ha
    have hsound : s.Sound := Machine.run_invariant
      (fun t action t' _ _ ht => (ht.step hSIZE hwords action).2 t') hnew
      (Machine.admits_of_run hrun) hrun
    have hpadded := hsound.padded a ha
    exact ⟨hpadded.isPlain hSIZE hwords, fun b hb => equals_iff hpadded (hsound.padded b hb)⟩

/-- Two arrays of two words each, changed through a proxy, by another array and as a whole. -/
def twoArrays : List BitArrayAction :=
  [.construct, .construct, .index 0 69, .assign 0 true, .xorAssign 1 0, .flipAll 1]

theorem bitArray_agrees_twoArrays :
    ((bitArrayMachine 70).run ⟨[], []⟩ twoArrays).map ArrayState.toPlain =
        (plainMachine 70).run ⟨[], []⟩ twoArrays ∧
      ∀ s, (bitArrayMachine 70).run ⟨[], []⟩ twoArrays = some s →
        ∀ a ∈ s.arrays, a.IsPlain a.toPlain ∧
          ∀ b ∈ s.arrays, a.equals b = true ↔ a.toPlain = b.toPlain :=
  bitArray_agrees (by decide) (by decide) twoArrays

end Cpp
end InfinityLabs
