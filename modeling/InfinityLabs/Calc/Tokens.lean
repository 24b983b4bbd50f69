import InfinityLabs.Calc.Calculator
import InfinityLabs.Lib.Precedence

/-!
# The calculator on tokens

What the calculator is, without its bytes and without its two stacks: a machine that reads
tokens and keeps the left operands that wait for their right ones, one list of them for every
bracket that is open.  A sign that was read stays until a number takes it.
-/

namespace InfinityLabs
namespace Calc

open Lib.Precedence

/-! ## Operators and brackets -/

/-- The operators. -/
inductive Op where
  | add
  | sub
  | mul
  | div
  | pow
  deriving DecidableEq, Repr

/-- The three kinds of brackets. -/
inductive Bracket where
  | paren
  | bracket
  | brace
  deriving DecidableEq, Repr

/-- The byte of an operator. -/
def Op.byte : Op → UInt8
  | .add => Calc.byte '+'
  | .sub => Calc.byte '-'
  | .mul => Calc.byte '*'
  | .div => Calc.byte '/'
  | .pow => Calc.byte '^'

/-- The opening byte of a bracket. -/
def Bracket.opens : Bracket → UInt8
  | .paren => Calc.byte '('
  | .bracket => Calc.byte '['
  | .brace => Calc.byte '\x7b'

/-- The closing byte of a bracket. -/
def Bracket.closes : Bracket → UInt8
  | .paren => Calc.byte ')'
  | .bracket => Calc.byte ']'
  | .brace => Calc.byte '\x7d'

/-- The operators with the precedences and directions of the calculator's tables. -/
def opTable : OpTable Op where
  prec o := opPrecedence o.byte
  right o := decide (opAssoc o.byte = .rightAssociative)
  right_eq {a b} h := by
    revert h
    cases a <;> cases b <;> decide

theorem opTable_prec_pos (o : Op) : 1 ≤ opTable.prec o := by
  cases o <;> decide

/-- A sign. -/
inductive Sign where
  | plus
  | minus
  deriving DecidableEq, Repr

/-- The operator that is written as the sign is. -/
def Sign.op : Sign → Op
  | .plus => .add
  | .minus => .sub

/-- What a sign multiplies `unary_sign` by. -/
def Sign.factor : Sign → Int
  | .plus => 1
  | .minus => -1

/-- The sign that an operator is read as where an operand may begin. -/
def Op.sign? : Op → Option Sign
  | .add => some .plus
  | .sub => some .minus
  | _ => none

@[simp] theorem Sign.sign?_op (s : Sign) : s.op.sign? = some s := by
  cases s <;> rfl

theorem Op.op_of_sign? {o : Op} {s : Sign} (h : o.sign? = some s) : o = s.op := by
  cases o with
  | add => obtain rfl := Option.some.inj h; rfl
  | sub => obtain rfl := Option.some.inj h; rfl
  | mul => cases h
  | div => cases h
  | pow => cases h

/-! ## Reading tokens -/

/-- A token; `bad` is a byte at which no token begins. -/
inductive Token (D : Type) where
  | op (o : Op)
  | opening (b : Bracket)
  | closing (b : Bracket)
  | number (v : D)
  | bad

section

variable {D : Type} (A : Arithmetic D) (strtod : Strtod D)

/-- The tokens of a string. -/
def tokens : List UInt8 → List (Token D)
  | [] => []
  | c :: rest =>
      match charToEvent c with
      | .end_ => []
      | .space => tokens rest
      | .num =>
          if strtod.length (c :: rest) = 0 then [.bad]
          else
            .number (strtod.value (c :: rest)) ::
              tokens (rest.drop (strtod.length (c :: rest) - 1))
      | .plus => .op .add :: tokens rest
      | .minus => .op .sub :: tokens rest
      | .mul => .op .mul :: tokens rest
      | .div => .op .div :: tokens rest
      | .pow => .op .pow :: tokens rest
      | .lparen => .opening .paren :: tokens rest
      | .rparen => .closing .paren :: tokens rest
      | .lbracket => .opening .bracket :: tokens rest
      | .rbracket => .closing .bracket :: tokens rest
      | .lbrace => .opening .brace :: tokens rest
      | .rbrace => .closing .brace :: tokens rest
      | .other => [.bad]
termination_by bytes => bytes.length
decreasing_by all_goals simp <;> omega

/-! ## The machine -/

/-- What `ApplyTopOperator` does with an operator and its operands; `none` where it returns
`MATH_ERROR`. -/
def apply (o : Op) (lhs rhs : D) : Option D :=
  match o with
  | .add => some (A.opAdd lhs rhs)
  | .sub => some (A.opSub lhs rhs)
  | .mul => some (A.opMul lhs rhs)
  | .div => if A.isZero rhs = true then none else some (A.opDiv lhs rhs)
  | .pow =>
      if (A.isZero rhs = true ∧ A.isZero lhs = true) ∨
          (A.isNegative lhs = true ∧ A.isIntegral rhs = false) then none
      else some (A.opPow lhs rhs)

/-- Why an expression is refused. -/
inductive Refusal where
  | math
  | syntax_
  deriving DecidableEq, Repr

/-- The brackets that are open, each with the operands that wait in front of it. -/
abbrev Open (D : Type) := List (Bracket × Pending Op D)

/-- The machine waits for an operand, with the product of the signs read, or stands behind an
operand. -/
inductive Reading (D : Type) where
  | num (sign : Int) (waiting : Pending Op D) (opened : Open D)
  | op (v : D) (waiting : Pending Op D) (opened : Open D)

/-- A closing bracket behind a value. -/
def close (b : Bracket) (v : D) : Open D → Except Refusal (Reading D)
  | [] => .error .syntax_
  | (b', waiting) :: opened =>
      if b' = b then .ok (.op v waiting opened) else .error .syntax_

/-- The machine reads a token. -/
def Reading.step : Reading D → Token D → Except Refusal (Reading D)
  | .num sign waiting opened, .op o =>
      match o.sign? with
      | some s => .ok (.num (sign * s.factor) waiting opened)
      | none => .error .syntax_
  | .num sign waiting opened, .opening b => .ok (.num sign [] ((b, waiting) :: opened))
  | .num sign waiting opened, .number v => .ok (.op (A.opMul v (A.ofInt sign)) waiting opened)
  | .num _ _ _, .closing _ => .error .syntax_
  | .op v waiting opened, .op o =>
      match reduce (apply A) opTable o v waiting with
      | none => .error .math
      | some (v', waiting') => .ok (.num 1 ((v', o) :: waiting') opened)
  | .op v waiting opened, .closing b =>
      match collapse (apply A) v waiting with
      | none => .error .math
      | some v' => close b v' opened
  | .op _ _ _, .opening _ => .error .syntax_
  | .op _ _ _, .number _ => .error .syntax_
  | _, .bad => .error .syntax_

/-- The machine at the end of the tokens. -/
def Reading.finish : Reading D → Except Refusal D
  | .num _ _ _ => .error .syntax_
  | .op v waiting opened =>
      match collapse (apply A) v waiting with
      | none => .error .math
      | some v' => if opened.isEmpty then .ok v' else .error .syntax_

/-- The machine reads a list of tokens. -/
def Reading.steps : Reading D → List (Token D) → Except Refusal (Reading D)
  | r, [] => .ok r
  | r, t :: rest => (r.step A t).bind fun r' => r'.steps rest

/-- The value of a list of tokens, read from the given point on. -/
def Reading.evaluate (r : Reading D) (ts : List (Token D)) : Except Refusal D :=
  (r.steps A ts).bind fun r' => r'.finish A

/-- Where the machine begins. -/
def Reading.start : Reading D := .num 1 [] []

/-- The value of a list of tokens. -/
def evaluateTokens (ts : List (Token D)) : Except Refusal D := Reading.start.evaluate A ts

variable {A}

theorem Reading.steps_cons (r : Reading D) (t : Token D) (rest : List (Token D)) :
    r.steps A (t :: rest) = (r.step A t).bind fun r' => r'.steps A rest := rfl

@[simp] theorem Reading.steps_singleton (r : Reading D) (t : Token D) :
    r.steps A [t] = r.step A t := by
  rw [steps_cons]
  cases r.step A t <;> rfl

/-- Reading goes on where it ended. -/
theorem Reading.steps_append (r : Reading D) (first second : List (Token D)) :
    r.steps A (first ++ second) = (r.steps A first).bind fun r' => r'.steps A second := by
  induction first generalizing r with
  | nil => rfl
  | cons t rest ih =>
      rw [List.cons_append, steps_cons, steps_cons]
      cases r.step A t with
      | error e => rfl
      | ok r' => exact ih r'

theorem Reading.evaluate_cons (r : Reading D) (t : Token D) (rest : List (Token D)) :
    r.evaluate A (t :: rest) = (r.step A t).bind fun r' => r'.evaluate A rest := by
  rw [evaluate, steps_cons]
  cases r.step A t <;> rfl

/-- A value is read from any point between the tokens. -/
theorem Reading.evaluate_append (r : Reading D) (first second : List (Token D)) :
    r.evaluate A (first ++ second) =
      (r.steps A first).bind fun r' => r'.evaluate A second := by
  rw [evaluate, steps_append]
  cases r.steps A first <;> rfl

/-! ## The tokens that are not refused -/

/-- What a token does that is not refused. -/
inductive Reading.Advances (A : Arithmetic D) : Reading D → Token D → Reading D → Prop
  | sign (sign : Int) (waiting : Pending Op D) (opened : Open D) (s : Sign) :
      Advances A (.num sign waiting opened) (.op s.op) (.num (sign * s.factor) waiting opened)
  | opening (sign : Int) (waiting : Pending Op D) (opened : Open D) (b : Bracket) :
      Advances A (.num sign waiting opened) (.opening b) (.num sign [] ((b, waiting) :: opened))
  | number (sign : Int) (waiting : Pending Op D) (opened : Open D) (v : D) :
      Advances A (.num sign waiting opened) (.number v)
        (.op (A.opMul v (A.ofInt sign)) waiting opened)
  | op {v v' : D} {waiting waiting' : Pending Op D} {o : Op} (opened : Open D)
      (hreduce : reduce (apply A) opTable o v waiting = some (v', waiting')) :
      Advances A (.op v waiting opened) (.op o) (.num 1 ((v', o) :: waiting') opened)
  | closing {v v' : D} {waiting : Pending Op D} (b : Bracket) (waiting' : Pending Op D)
      (opened : Open D) (hcollapse : collapse (apply A) v waiting = some v') :
      Advances A (.op v waiting ((b, waiting') :: opened)) (.closing b) (.op v' waiting' opened)

/-- A step that is not refused does one of these things. -/
theorem Reading.step_advances {r r' : Reading D} {t : Token D} (h : r.step A t = .ok r') :
    r.Advances A t r' := by
  cases r with
  | num sign waiting opened =>
      cases t with
      | op o =>
          rw [Reading.step] at h
          split at h
          case h_2 => cases h
          case h_1 s hs =>
            obtain rfl := Except.ok.inj h
            obtain rfl := Op.op_of_sign? hs
            exact .sign sign waiting opened s
      | opening b =>
          obtain rfl := Except.ok.inj h
          exact .opening sign waiting opened b
      | closing b => cases h
      | number v =>
          obtain rfl := Except.ok.inj h
          exact .number sign waiting opened v
      | bad => cases h
  | op v waiting opened =>
      cases t with
      | op o =>
          rw [Reading.step] at h
          split at h
          case h_1 => cases h
          case h_2 v' waiting' hreduce =>
            obtain rfl := Except.ok.inj h
            exact .op opened hreduce
      | opening b => cases h
      | closing b =>
          rw [Reading.step] at h
          split at h
          case h_1 => cases h
          case h_2 v' hcollapse =>
            cases opened with
            | nil => cases h
            | cons entry rest =>
                obtain ⟨b', waiting'⟩ := entry
                rw [close] at h
                split at h
                case isFalse => cases h
                case isTrue hsame =>
                  subst hsame
                  obtain rfl := Except.ok.inj h
                  exact .closing b' waiting' rest hcollapse
      | number v => cases h
      | bad => cases h

/-- What every token that is not refused preserves, a list of them preserves; `P` also knows
the tokens that were read. -/
theorem Reading.steps_invariant {P : Reading D → List (Token D) → Prop}
    (hstep : ∀ r t r' ts, P r ts → r.Advances A t r' → P r' (ts ++ [t])) {r r' : Reading D}
    (ts : List (Token D)) {us : List (Token D)} (h : P r ts)
    (hsteps : r.steps A us = .ok r') : P r' (ts ++ us) := by
  induction us generalizing r ts with
  | nil =>
      obtain rfl := Except.ok.inj hsteps
      rw [List.append_nil]
      exact h
  | cons t rest ih =>
      rw [steps_cons] at hsteps
      cases hnext : r.step A t with
      | error e =>
          rw [hnext] at hsteps
          cases hsteps
      | ok next =>
          rw [hnext] at hsteps
          have hrest := ih (ts ++ [t]) (hstep r t next ts h (step_advances hnext)) hsteps
          rwa [List.append_assoc] at hrest

end

end Calc
end InfinityLabs
