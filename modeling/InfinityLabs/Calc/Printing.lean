import InfinityLabs.Calc.Evaluation
import Mathlib.Data.List.Chain

/-!
# Printed expression trees

An expression tree has signed literals at its leaves.  It is printed with a pair of brackets
of any kind wherever one is needed and wherever else one is wanted, and with blanks between
the tokens.
-/

namespace InfinityLabs
namespace Calc

open Lib.Precedence

variable {D : Type}

/-- An expression tree.  A literal is given by its bytes. -/
inductive Expr where
  | literal (signs : List Sign) (text : List UInt8)
  | node (o : Op) (l r : Expr)

/-- The value of a tree; `none` where an operation is rejected. -/
def Expr.eval (A : Arithmetic D) (strtod : Strtod D) : Expr → Option D
  | .literal signs text => some (A.opMul (strtod.value text) (A.ofInt (signFactor signs)))
  | .node o l r =>
      (l.eval A strtod).bind fun a => (r.eval A strtod).bind fun b => apply A o a b

/-- Some operation of the tree is one that `ApplyTopOperator` rejects. -/
inductive Expr.HasRejected (A : Arithmetic D) (strtod : Strtod D) : Expr → Prop
  | here {o : Op} {l r : Expr} {a b : D} (hl : l.eval A strtod = some a)
      (hr : r.eval A strtod = some b) (happly : apply A o a b = none) :
      HasRejected A strtod (.node o l r)
  | left {o : Op} {l : Expr} (r : Expr) (hl : HasRejected A strtod l) :
      HasRejected A strtod (.node o l r)
  | right {o : Op} (l : Expr) {r : Expr} (hr : HasRejected A strtod r) :
      HasRejected A strtod (.node o l r)

/-- A tree has no value exactly where an operation is rejected. -/
theorem Expr.eval_eq_none (A : Arithmetic D) (strtod : Strtod D) (e : Expr) :
    e.eval A strtod = none ↔ e.HasRejected A strtod := by
  induction e with
  | literal signs text => exact ⟨fun h => (nomatch h), fun h => (nomatch h)⟩
  | node o l r ihl ihr =>
      rw [eval]
      cases hl : l.eval A strtod with
      | none => exact ⟨fun _ => .left r (ihl.mp hl), fun _ => rfl⟩
      | some a =>
          cases hr : r.eval A strtod with
          | none => exact ⟨fun _ => .right l (ihr.mp hr), fun _ => rfl⟩
          | some b =>
              refine ⟨fun h => .here hl hr h, fun h => ?_⟩
              cases h with
              | here hl' hr' happly =>
                  rw [hl] at hl'
                  rw [hr] at hr'
                  obtain rfl := Option.some.inj hl'
                  obtain rfl := Option.some.inj hr'
                  exact happly
              | left _ h => exact absurd (ihl.mpr h) (by rw [hl]; exact Option.some_ne_none a)
              | right _ h => exact absurd (ihr.mpr h) (by rw [hr]; exact Option.some_ne_none b)

/-- The literals of a tree. -/
def Expr.literals : Expr → List (List UInt8)
  | .literal _ text => [text]
  | .node _ l r => l.literals ++ r.literals

/-- The tokens of a tree, with literals for numbers, whose operators outside of brackets have
at least precedence `k`. -/
inductive Printed : Nat → Expr → List (Token (List UInt8)) → Prop
  | literal (k : Nat) (signs : List Sign) (text : List UInt8) :
      Printed k (.literal signs text) (signTokens signs ++ [.number text])
  | brackets (k : Nat) (b : Bracket) {e : Expr} {ts : List (Token (List UInt8))}
      (hinner : Printed 1 e ts) : Printed k e (.opening b :: ts ++ [.closing b])
  | node {k : Nat} {o : Op} {l r : Expr} {ls rs : List (Token (List UInt8))}
      (hk : k ≤ opTable.prec o) (hl : Printed (opTable.leftLevel o) l ls)
      (hr : Printed (opTable.rightLevel o) r rs) : Printed k (.node o l r) (ls ++ .op o :: rs)

/-- The bytes of tokens, with blanks between them. -/
inductive Spelled : List (Token (List UInt8)) → List UInt8 → Prop
  | nil : Spelled [] []
  | blank {c : UInt8} {ts : List (Token (List UInt8))} {bytes : List UInt8}
      (hblank : c ∈ blanks) (hrest : Spelled ts bytes) : Spelled ts (c :: bytes)
  | op (o : Op) {ts : List (Token (List UInt8))} {bytes : List UInt8}
      (hrest : Spelled ts bytes) : Spelled (.op o :: ts) (o.byte :: bytes)
  | opening (b : Bracket) {ts : List (Token (List UInt8))} {bytes : List UInt8}
      (hrest : Spelled ts bytes) : Spelled (.opening b :: ts) (b.opens :: bytes)
  | closing (b : Bracket) {ts : List (Token (List UInt8))} {bytes : List UInt8}
      (hrest : Spelled ts bytes) : Spelled (.closing b :: ts) (b.closes :: bytes)
  | number (text : List UInt8) {ts : List (Token (List UInt8))} {bytes : List UInt8}
      (hrest : Spelled ts bytes) : Spelled (.number text :: ts) (text ++ bytes)

/-- The string is a print of the tree. -/
def Expr.PrintedAs (e : Expr) (expression : CString) : Prop :=
  ∃ ts, Printed 1 e ts ∧ Spelled ts expression.bytes

/-- The bytes go on with a blank, an operator or a closing bracket, or end. -/
inductive Delimited : List UInt8 → Prop
  | nil : Delimited []
  | blank {c : UInt8} (hblank : c ∈ blanks) (rest : List UInt8) : Delimited (c :: rest)
  | op (o : Op) (rest : List UInt8) : Delimited (o.byte :: rest)
  | closing (b : Bracket) (rest : List UInt8) : Delimited (b.closes :: rest)

/-- `strtod` reads exactly the literal, wherever it is followed by no more of a number. -/
structure ReadsExactly (strtod : Strtod D) (text : List UInt8) : Prop where
  begins : ∃ c rest, text = c :: rest ∧ BeginsNumber c
  reads : ∀ rest, Delimited rest →
    strtod.length (text ++ rest) = text.length ∧ strtod.value (text ++ rest) = strtod.value text

/-! ## The tokens of a print -/

/-- A literal stands for the number that `strtod` reads. -/
def Token.read (strtod : Strtod D) : Token (List UInt8) → Token D
  | .op o => .op o
  | .opening b => .opening b
  | .closing b => .closing b
  | .number text => .number (strtod.value text)
  | .bad => .bad

theorem map_read_signTokens (strtod : Strtod D) (signs : List Sign) :
    (signTokens signs).map (Token.read strtod) = signTokens signs := by
  induction signs with
  | nil => rfl
  | cons s signs ih => exact congrArg (List.cons _) ih

/-- Behind a number stands an operator or a closing bracket. -/
def Separate : Token (List UInt8) → Token (List UInt8) → Prop
  | .number _, .op _ => True
  | .number _, .closing _ => True
  | .number _, _ => False
  | _, _ => True

theorem separate_op (t : Token (List UInt8)) (o : Op) : Separate t (.op o) := by
  cases t <;> exact trivial

theorem separate_closing (t : Token (List UInt8)) (b : Bracket) : Separate t (.closing b) := by
  cases t <;> exact trivial

theorem separate_signTokens (signs : List Sign) (text : List UInt8) :
    (signTokens signs ++ [Token.number text]).IsChain Separate := by
  induction signs with
  | nil => exact .singleton _
  | cons s signs ih => exact ih.cons fun _ _ => trivial

/-- In a print every number is separate from what follows. -/
theorem Printed.separate {k : Nat} {e : Expr} {ts : List (Token (List UInt8))}
    (h : Printed k e ts) : ts.IsChain Separate := by
  induction h with
  | literal k signs text => exact separate_signTokens signs text
  | brackets k b hinner ih =>
      refine List.IsChain.cons (ih.append (.singleton _) fun x _ y hy => ?_) fun _ _ => trivial
      obtain rfl := Option.some.inj hy
      exact separate_closing x b
  | @node k o l r ls rs hk hl hr ihl ihr =>
      refine ihl.append (ihr.cons fun _ _ => trivial) fun x _ y hy => ?_
      obtain rfl := Option.some.inj hy
      exact separate_op x o

/-- What may stand behind a number delimits it. -/
theorem Spelled.delimited {ts : List (Token (List UInt8))} {bytes : List UInt8}
    {text : List UInt8} (h : Spelled ts bytes)
    (hseparate : ∀ t ∈ ts.head?, Separate (.number text) t) : Delimited bytes := by
  cases h with
  | nil => exact .nil
  | blank hblank hrest => exact .blank hblank _
  | op o hrest => exact .op o _
  | opening b hrest => exact (hseparate _ rfl).elim
  | closing b hrest => exact .closing b _
  | number text' hrest => exact (hseparate _ rfl).elim

/-- The literals among tokens. -/
def literalTexts (ts : List (Token (List UInt8))) : List (List UInt8) :=
  ts.filterMap fun
    | .number text => some text
    | _ => none

theorem charToEvent_of_beginsNumber {c : UInt8} (h : BeginsNumber c) : charToEvent c = .num := by
  have hall : ∀ n : Fin 256,
      isDigit (UInt8.ofFin n) = true ∨ UInt8.ofFin n = byte '.' →
        charToEvent (UInt8.ofFin n) = .num := by
    decide +kernel
  exact hall c.toFin h

theorem charToEvent_of_blank {c : UInt8} (h : c ∈ blanks) : charToEvent c = .space := by
  have hall : ∀ c ∈ blanks, charToEvent c = .space := by
    decide +kernel
  exact hall c h

/-- The tokens of a spelling are the ones that were spelled. -/
theorem Spelled.tokens_eq {strtod : Strtod D} {ts : List (Token (List UInt8))}
    {bytes : List UInt8} (h : Spelled ts bytes) (hseparate : ts.IsChain Separate)
    (hliterals : ∀ text ∈ literalTexts ts, ReadsExactly strtod text) :
    tokens strtod bytes = ts.map (Token.read strtod) := by
  induction h with
  | nil => rw [tokens_nil, List.map_nil]
  | blank hblank hrest ih =>
      rw [tokens_space (charToEvent_of_blank hblank)]
      exact ih hseparate hliterals
  | op o hrest ih =>
      rw [tokens_op (charToEvent_op o), List.map_cons, ih hseparate.tail hliterals]
      rfl
  | opening b hrest ih =>
      rw [tokens_opening (charToEvent_opens b), List.map_cons, ih hseparate.tail hliterals]
      rfl
  | closing b hrest ih =>
      rw [tokens_closing (charToEvent_closes b), List.map_cons, ih hseparate.tail hliterals]
      rfl
  | @number text ts bytes hrest ih =>
      obtain ⟨hhead, htail⟩ := List.isChain_cons.mp hseparate
      have hexact := hliterals text List.mem_cons_self
      obtain ⟨hlength, hvalue⟩ := hexact.reads bytes (hrest.delimited hhead)
      obtain ⟨c, rest, rfl, hbegins⟩ := hexact.begins
      have hne : strtod.length (c :: (rest ++ bytes)) ≠ 0 := by
        rw [← List.cons_append, hlength]
        exact Nat.succ_ne_zero _
      rw [List.cons_append, tokens_num (charToEvent_of_beginsNumber hbegins), if_neg hne,
        ← List.cons_append, hlength, hvalue, List.drop_left,
        ih htail fun x hx => hliterals x (List.mem_cons_of_mem _ hx)]
      rfl

/-- The literals of a print are those of the tree. -/
theorem Printed.literalTexts_eq {k : Nat} {e : Expr} {ts : List (Token (List UInt8))}
    (h : Printed k e ts) : literalTexts ts = e.literals := by
  induction h with
  | literal k signs text =>
      induction signs with
      | nil => rfl
      | cons s signs ih => exact ih
  | brackets k b hinner ih =>
      simp only [literalTexts, List.cons_append, List.filterMap_cons, List.filterMap_append,
        List.filterMap_nil, List.append_nil] at ih ⊢
      exact ih
  | node hk hl hr ihl ihr =>
      simp only [literalTexts, List.filterMap_cons, List.filterMap_append, Expr.literals]
        at ihl ihr ⊢
      rw [ihl, ihr]

/-- A print has a tree with the value of the expression. -/
theorem Printed.exists_tree {k : Nat} {e : Expr} {ts : List (Token (List UInt8))}
    (h : Printed k e ts) (A : Arithmetic D) (strtod : Strtod D) :
    ∃ t : Tree D, Derives k t (ts.map (Token.read strtod)) ∧ t.value A 1 = e.eval A strtod := by
  induction h with
  | literal k signs text =>
      refine ⟨.number signs (strtod.value text), ?_, ?_⟩
      · rw [List.map_append, map_read_signTokens]
        exact .number k signs (strtod.value text)
      · rw [Tree.value, Expr.eval, Int.one_mul]
  | brackets k b hinner ih =>
      obtain ⟨t, hderives, hvalue⟩ := ih
      refine ⟨.group [] b t, ?_, hvalue⟩
      rw [List.map_append, List.map_cons]
      exact .group k [] b hderives
  | @node k o l r ls rs hk hl hr ihl ihr =>
      obtain ⟨l', hl', hlvalue⟩ := ihl
      obtain ⟨r', hr', hrvalue⟩ := ihr
      refine ⟨.node o l' r', ?_, ?_⟩
      · rw [List.map_append, List.map_cons]
        exact .node hk hl' hr'
      · rw [Tree.value, Expr.eval, hlvalue, hrvalue]

/-! ## The value of a print -/

/-- `Calculate` evaluates its language: on every print of an expression tree it returns
`SUCCESS` with the value of the tree, or `MATH_ERROR` where an operation is rejected. -/
theorem calculate_evaluates (A : Arithmetic D) (strtod : Strtod D) (e : Expr)
    (expression : CString) (rounds : Nat) (hprinted : e.PrintedAs expression)
    (hliterals : ∀ text ∈ e.literals, ReadsExactly strtod text)
    (hrounds : strlen expression + 2 ≤ rounds) :
    (∀ v, e.eval A strtod = some v →
      calculate A strtod ⟨true, true⟩ expression rounds = some (.success, some v)) ∧
    (e.eval A strtod = none ↔ e.HasRejected A strtod) ∧
    (e.HasRejected A strtod →
      calculate A strtod ⟨true, true⟩ expression rounds = some (.mathError, none)) := by
  obtain ⟨ts, hprinted, hspelled⟩ := hprinted
  have htokens : tokens strtod expression.bytes = ts.map (Token.read strtod) :=
    hspelled.tokens_eq hprinted.separate (hprinted.literalTexts_eq ▸ hliterals)
  obtain ⟨t, hderives, hvalue⟩ := hprinted.exists_tree A strtod
  have hresult : calculate A strtod ⟨true, true⟩ expression rounds =
      some (verdict (orMath (e.eval A strtod))) := by
    rw [calculate_eq hrounds, htokens, evaluateTokens_derives hderives, hvalue]
  refine ⟨fun v hv => ?_, e.eval_eq_none A strtod, fun hrejected => ?_⟩
  · rw [hresult, hv]
    rfl
  · rw [hresult, (e.eval_eq_none A strtod).mpr hrejected]
    rfl

/-! ## A print of whole numbers -/

/-- What delimits a number is no digit. -/
theorem Delimited.takeWhile_isDigit {rest : List UInt8} (h : Delimited rest) :
    rest.takeWhile isDigit = [] := by
  cases h with
  | nil => rfl
  | blank hblank rest =>
      have hall : ∀ c ∈ blanks, isDigit c = false := by
        decide +kernel
      rw [List.takeWhile_cons, hall _ hblank]
      rfl
  | op o rest => cases o <;> rfl
  | closing b rest => cases b <;> rfl

/-- The reading of digits reads exactly the numbers that are written with them. -/
theorem readsExactly_digits {c : UInt8} {rest : List UInt8}
    (hdigits : ∀ x ∈ c :: rest, isDigit x = true) : ReadsExactly wholeStrtod (c :: rest) := by
  have hself : (c :: rest).takeWhile isDigit = c :: rest := by
    have happend := @List.takeWhile_append_of_pos _ isDigit (c :: rest) [] hdigits
    rwa [List.append_nil, List.takeWhile_nil, List.append_nil] at happend
  refine ⟨⟨c, rest, rfl, Or.inl (hdigits c List.mem_cons_self)⟩, fun behind hbehind => ?_⟩
  have htake : (c :: rest ++ behind).takeWhile isDigit = c :: rest := by
    rw [List.takeWhile_append_of_pos hdigits, hbehind.takeWhile_isDigit, List.append_nil]
  exact ⟨congrArg List.length htake, by simp only [wholeStrtod, htake, hself]⟩

/-- The string `[1 + 2]*-3`. -/
def bracketedSum : CString :=
  ⟨['[', '1', ' ', '+', ' ', '2', ']', '*', '-', '3'].map byte, by decide⟩

/-- The tree of the string. -/
def bracketedSumTree : Expr :=
  .node .mul (.node .add (.literal [] [byte '1']) (.literal [] [byte '2']))
    (.literal [.minus] [byte '3'])

theorem bracketedSumTree_printedAs : bracketedSumTree.PrintedAs bracketedSum := by
  have hsum : Printed 1 (.node .add (.literal [] [byte '1']) (.literal [] [byte '2'])) _ :=
    .node (by decide) (.literal _ [] [byte '1']) (.literal _ [] [byte '2'])
  refine ⟨_, .node (by decide) (.brackets _ .bracket hsum) (.literal _ [.minus] [byte '3']), ?_⟩
  exact .opening .bracket (.number [byte '1'] (.blank (by decide) (.op .add (.blank (by decide)
    (.number [byte '2'] (.closing .bracket (.op .mul (.op .sub
      (.number [byte '3'] .nil)))))))))

/-- `Calculate` on the string. -/
theorem calculate_evaluates_bracketedSum :
    (∀ v, bracketedSumTree.eval wholeArithmetic wholeStrtod = some v →
      calculate wholeArithmetic wholeStrtod ⟨true, true⟩ bracketedSum 12 =
        some (.success, some v)) ∧
    (bracketedSumTree.eval wholeArithmetic wholeStrtod = none ↔
      bracketedSumTree.HasRejected wholeArithmetic wholeStrtod) ∧
    (bracketedSumTree.HasRejected wholeArithmetic wholeStrtod →
      calculate wholeArithmetic wholeStrtod ⟨true, true⟩ bracketedSum 12 =
        some (.mathError, none)) := by
  refine calculate_evaluates wholeArithmetic wholeStrtod bracketedSumTree bracketedSum 12
    bracketedSumTree_printedAs (fun text htext => ?_) (by decide)
  have hall : ∀ text ∈ bracketedSumTree.literals, text ≠ [] ∧ ∀ x ∈ text, isDigit x = true := by
    decide +kernel
  obtain ⟨hne, hdigits⟩ := hall text htext
  obtain ⟨c, rest, rfl⟩ := List.exists_cons_of_ne_nil hne
  exact readsExactly_digits hdigits

end Calc
end InfinityLabs
