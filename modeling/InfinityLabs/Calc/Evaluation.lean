import InfinityLabs.Calc.Grammar
import Mathlib.Algebra.BigOperators.Group.List.Basic

/-!
# The calculator evaluates expression trees

A tree stands for its tokens when every operator has at its sides what its precedence and its
direction allow without brackets.  Reading these tokens, the machine arrives behind an operand
whose waiting entries collapse to the value of the tree; what waited before is untouched.  A
sign in front of a bracket stays pending until the first number inside takes it, so the value
of a tree depends on the signs read before it.
-/

namespace InfinityLabs
namespace Calc

open Lib.Precedence

variable {D : Type}

/-! ## Trees and their tokens -/

/-- The product of signs. -/
def signFactor (signs : List Sign) : Int := (signs.map Sign.factor).prod

@[simp] theorem signFactor_nil : signFactor [] = 1 := rfl

@[simp] theorem signFactor_cons (s : Sign) (signs : List Sign) :
    signFactor (s :: signs) = s.factor * signFactor signs := by
  rw [signFactor, List.map_cons, List.prod_cons, signFactor]

/-- A tree of an expression, with the signs and brackets of its operands. -/
inductive Tree (D : Type) where
  | number (signs : List Sign) (v : D)
  | group (signs : List Sign) (b : Bracket) (inner : Tree D)
  | node (o : Op) (l r : Tree D)

/-- The value that the machine gives a tree behind signs with the product `sign`; `none`
where an operation is rejected. -/
def Tree.value (A : Arithmetic D) : Int → Tree D → Option D
  | sign, .number signs v => some (A.opMul v (A.ofInt (sign * signFactor signs)))
  | sign, .group signs _ inner => inner.value A (sign * signFactor signs)
  | sign, .node o l r =>
      (l.value A sign).bind fun a => (r.value A 1).bind fun b => apply A o a b

/-- The tokens of a tree whose operators outside of brackets have at least precedence `k`. -/
inductive Derives : Nat → Tree D → List (Token D) → Prop
  | number (k : Nat) (signs : List Sign) (v : D) :
      Derives k (.number signs v) (signTokens signs ++ [.number v])
  | group (k : Nat) (signs : List Sign) (b : Bracket) {inner : Tree D} {ts : List (Token D)}
      (hinner : Derives 1 inner ts) :
      Derives k (.group signs b inner)
        (signTokens signs ++ (.opening b :: ts ++ [.closing b]))
  | node {k : Nat} {o : Op} {l r : Tree D} {ls rs : List (Token D)} (hk : k ≤ opTable.prec o)
      (hl : Derives (opTable.leftLevel o) l ls) (hr : Derives (opTable.rightLevel o) r rs) :
      Derives k (.node o l r) (ls ++ .op o :: rs)

/-! ## Reading the tokens of a tree -/

section Reading

variable {A : Arithmetic D} {k : Nat} {sign : Int} {waiting : Pending Op D} {opened : Open D}

/-- Signs multiply. -/
theorem steps_signTokens (signs : List Sign) :
    (Reading.num sign waiting opened).steps A (signTokens signs) =
      .ok (.num (sign * signFactor signs) waiting opened) := by
  induction signs generalizing sign with
  | nil => rw [signFactor_nil, Int.mul_one]; rfl
  | cons s signs ih =>
      have hstep : (Reading.num sign waiting opened).step A (.op s.op) =
          .ok (.num (sign * s.factor) waiting opened) := by
        rw [Reading.step, Sign.sign?_op]
      calc (Reading.num sign waiting opened).steps A (signTokens (s :: signs))
          = (Reading.num (sign * s.factor) waiting opened).steps A (signTokens signs) := by
            rw [signTokens, List.map_cons, Reading.steps_cons, hstep]
            rfl
        _ = .ok (.num (sign * signFactor (s :: signs)) waiting opened) := by
            rw [ih, signFactor_cons, Int.mul_assoc]

/-- The machine arrives behind an operand whose entries collapse to the value, or it has met
the rejected operation that leaves no value. -/
def Arrives (A : Arithmetic D) (k : Nat) (waiting : Pending Op D) (opened : Open D)
    (value : Option D) (result : Except Refusal (Reading D)) : Prop :=
  (result = .error .math ∧ value = none) ∨
    ∃ v entries, result = .ok (.op v (entries ++ waiting) opened) ∧
      (∀ entry ∈ entries, k ≤ opTable.prec entry.2) ∧ collapse (apply A) v entries = value

/-- A missing value is an arithmetic error. -/
def orMath {α : Type} : Option α → Except Refusal α
  | none => .error .math
  | some a => .ok a

/-- An operator behind a tree has its value for the left operand. -/
theorem Arrives.op {o : Op} {value : Option D} {result : Except Refusal (Reading D)}
    (h : Arrives A (opTable.leftLevel o) waiting opened value result)
    (hguards : Guards opTable k waiting) (hk : k ≤ opTable.prec o) :
    (result.bind fun r => r.step A (.op o)) =
      orMath (value.map fun a => .num 1 ((a, o) :: waiting) opened) := by
  rcases h with ⟨rfl, rfl⟩ | ⟨v, entries, rfl, hentries, rfl⟩
  · rfl
  · have hreduce := reduce_append (apply A)
      (fun entry he => OpTable.releases_of_leftLevel (hentries entry he)) hguards hk v
    simp only [Except.bind, Reading.step, hreduce]
    cases collapse (apply A) v entries <;> rfl

/-- A closing bracket behind a tree makes its value an operand. -/
theorem Arrives.closing {b : Bracket} {value : Option D} {result : Except Refusal (Reading D)}
    (h : Arrives A 1 [] ((b, waiting) :: opened) value result) :
    Arrives A k waiting opened value (result.bind fun r => r.step A (.closing b)) := by
  rcases h with ⟨rfl, rfl⟩ | ⟨v, entries, rfl, -, rfl⟩
  · exact Or.inl ⟨rfl, rfl⟩
  · simp only [Except.bind, Reading.step, List.append_nil]
    cases collapse (apply A) v entries with
    | none => exact Or.inl ⟨rfl, rfl⟩
    | some a =>
        refine Or.inr ⟨a, [], ?_, fun _ he => absurd he List.not_mem_nil, rfl⟩
        simp only [close, if_true, List.nil_append]

/-- The right operand of an operator that waits. -/
theorem Arrives.right {o : Op} {a : D} {value : Option D} {result : Except Refusal (Reading D)}
    (h : Arrives A (opTable.rightLevel o) ((a, o) :: waiting) opened value result)
    (hk : k ≤ opTable.prec o) :
    Arrives A k waiting opened (value.bind fun b => apply A o a b) result := by
  rcases h with ⟨rfl, rfl⟩ | ⟨v, entries, rfl, hentries, rfl⟩
  · exact Or.inl ⟨rfl, rfl⟩
  · refine Or.inr ⟨v, entries ++ [(a, o)], ?_, ?_, ?_⟩
    · rw [List.append_assoc]
      rfl
    · intro entry hentry
      rcases List.mem_append.mp hentry with he | he
      · exact Nat.le_trans hk (Nat.le_trans (opTable.prec_le_rightLevel o) (hentries entry he))
      · obtain rfl := List.mem_singleton.mp he
        exact hk
    · rw [collapse_append]
      congr 1
      funext b
      cases hb : apply A o a b <;> simp only [collapse, hb, Option.bind_none, Option.bind_some]

/-- The machine reads a tree to its value. -/
theorem steps_derives {t : Tree D} {ts : List (Token D)} (h : Derives k t ts)
    (hguards : Guards opTable k waiting) :
    Arrives A k waiting opened (t.value A sign)
      ((Reading.num sign waiting opened).steps A ts) := by
  induction h generalizing sign waiting opened with
  | number k signs v =>
      rw [Reading.steps_append, steps_signTokens]
      exact Or.inr ⟨_, [], rfl, fun _ he => (nomatch he), rfl⟩
  | group k signs b hinner ih =>
      have hopen (ts : List (Token D)) : (Reading.num sign waiting opened).steps A
          (signTokens signs ++ (.opening b :: ts ++ [.closing b])) =
          ((Reading.num (sign * signFactor signs) [] ((b, waiting) :: opened)).steps A ts).bind
            fun r => r.step A (.closing b) := by
        rw [Reading.steps_append, steps_signTokens]
        show (Reading.num (sign * signFactor signs) [] ((b, waiting) :: opened)).steps A
          (ts ++ [.closing b]) = _
        rw [Reading.steps_append]
        simp only [Reading.steps_singleton]
      rw [hopen, Tree.value]
      exact (ih (guards_nil opTable 1)).closing
  | @node k o l r ls rs hk hl hr ihl ihr =>
      -- the left operand keeps the sign, the right one begins without
      have harrives : Arrives A (opTable.leftLevel o) waiting opened (l.value A sign)
          ((Reading.num sign waiting opened).steps A ls) :=
        ihl (hguards.mono (Nat.le_trans hk (opTable.prec_le_leftLevel o)))
      have hleft := harrives.op hguards hk
      rw [Reading.steps_append, Tree.value]
      have hstep (result : Except Refusal (Reading D)) :
          (result.bind fun r => r.steps A (.op o :: rs)) =
            (result.bind fun r => r.step A (.op o)).bind fun r => r.steps A rs := by
        cases result <;> rfl
      rw [hstep, hleft]
      cases l.value A sign with
      | none => exact Or.inl ⟨rfl, rfl⟩
      | some a => exact (ihr (guards_cons opTable a o waiting)).right hk

/-- The tokens of a tree have its value. -/
theorem evaluateTokens_derives {t : Tree D} {ts : List (Token D)} (h : Derives 1 t ts) :
    evaluateTokens A ts = orMath (t.value A 1) := by
  have harrives : Arrives A 1 [] [] (t.value A 1) ((Reading.num 1 [] []).steps A ts) :=
    steps_derives h (guards_nil opTable 1)
  rw [evaluateTokens, Reading.evaluate, Reading.start]
  rcases harrives with ⟨hresult, hvalue⟩ | ⟨v, entries, hresult, -, hvalue⟩
  · rw [hresult, hvalue]
    rfl
  · rw [hresult, ← hvalue, List.append_nil]
    simp only [Except.bind, Reading.finish]
    cases collapse (apply A) v entries <;> rfl

end Reading

/-! ## Every expression has a tree -/

/-- The tree is an operand. -/
def Tree.IsOperand : Tree D → Prop
  | .number _ _ => True
  | .group _ _ _ => True
  | .node _ _ _ => False

/-- An operand may stand beside every operator. -/
theorem Derives.operand {k : Nat} {t : Tree D} {ts : List (Token D)} (h : Derives k t ts)
    (hoperand : t.IsOperand) (m : Nat) : Derives m t ts := by
  cases h with
  | number _ signs v => exact .number m signs v
  | group _ signs b hinner => exact .group m signs b hinner
  | node hk hl hr => exact hoperand.elim

/-- A sign in front of an operand makes an operand. -/
theorem Derives.signed {k : Nat} {t : Tree D} {ts : List (Token D)} (h : Derives k t ts)
    (hoperand : t.IsOperand) (s : Sign) :
    ∃ t' : Tree D, t'.IsOperand ∧ Derives k t' (.op s.op :: ts) := by
  cases h with
  | number _ signs v => exact ⟨.number (s :: signs) v, trivial, .number k (s :: signs) v⟩
  | group _ signs b hinner =>
      exact ⟨.group (s :: signs) b _, trivial, .group k (s :: signs) b hinner⟩
  | node hk hl hr => exact hoperand.elim

/-- An operator and its right operand behind a tree make a tree. -/
theorem Derives.append {k : Nat} {t : Tree D} {ts : List (Token D)} (h : Derives k t ts)
    {o : Op} (hk : k ≤ opTable.prec o) {m : Nat} {u : Tree D} {us : List (Token D)}
    (hu : Derives m u us) (hoperand : u.IsOperand) :
    ∃ t', Derives k t' (ts ++ .op o :: us) := by
  have hright := hu.operand hoperand (opTable.rightLevel o)
  induction h with
  | number k signs v => exact ⟨_, .node hk (.number _ signs v) hright⟩
  | group k signs b hinner ih => exact ⟨_, .node hk (.group _ signs b hinner) hright⟩
  | @node k o' l r ls rs hk' hl hr ihl ihr =>
      -- the new operator takes the whole tree, or goes into its right operand
      rcases opTable.leftLevel_le_or_rightLevel_le o' o with hbelow | habove
      · exact ⟨_, .node hk (.node hbelow hl hr) hright⟩
      · obtain ⟨r', hr'⟩ := ihr habove
        refine ⟨.node o' l r', ?_⟩
        rw [List.append_assoc]
        exact .node hk' hl hr'

/-- Every phrase has a tree, and the tree of an operand is one. -/
theorem Phrase.exists_tree {kind : PhraseKind} {ts : List (Token D)} (h : Phrase kind ts) :
    ∃ t : Tree D, (kind = .operand → t.IsOperand) ∧ Derives 1 t ts := by
  induction h with
  | number v => exact ⟨.number [] v, fun _ => trivial, .number 1 [] v⟩
  | group b hinner ih =>
      obtain ⟨t, -, ht⟩ := ih
      exact ⟨.group [] b t, fun _ => trivial, .group 1 [] b ht⟩
  | signed s hoperand ih =>
      obtain ⟨t, hkind, ht⟩ := ih
      obtain ⟨t', hoperand', ht'⟩ := ht.signed (hkind rfl) s
      exact ⟨t', fun _ => hoperand', ht'⟩
  | single hoperand ih =>
      obtain ⟨t, -, ht⟩ := ih
      exact ⟨t, fun h => (nomatch h), ht⟩
  | binary o hleft hoperand ihl ihr =>
      obtain ⟨t, -, ht⟩ := ihl
      obtain ⟨u, hkind, hu⟩ := ihr
      obtain ⟨t', ht'⟩ := ht.append (opTable_prec_pos o) hu (hkind rfl)
      exact ⟨t', fun h => (nomatch h), ht'⟩

end Calc
end InfinityLabs
