import InfinityLabs.Ds.Stack
import Mathlib.Algebra.Ring.Int.Defs

/-!
# The calculator

`projects/calculator/src/calculator.c`.  A table of two states and fifteen events chooses an
action for the byte under the cursor; the actions keep a stack of values and a stack of
operators and open brackets.

The arithmetic of `double` and the reading of a number by `strtod` are parameters.  The bytes
of the expression stand without the terminator, which is the byte 0 behind the last of them.
A failed assertion of the stacks has no result.
-/

namespace InfinityLabs
namespace Calc

open Ds

/-! ## What the calculator is given -/

/-- A `calculator_status_t`. -/
inductive CalculatorStatus where
  | success
  | mathError
  | syntaxError
  | allocError
  deriving DecidableEq, Repr

/-- The arithmetic of `double` that the calculator uses. -/
structure Arithmetic (D : Type) where
  opAdd : D → D → D
  opSub : D → D → D
  opMul : D → D → D
  opDiv : D → D → D
  opPow : D → D → D
  /-- The conversion of an `int`. -/
  ofInt : Int → D
  /-- `x == 0.0`. -/
  isZero : D → Bool
  /-- `x < 0.0`. -/
  isNegative : D → Bool
  /-- `floor(x) == x`. -/
  isIntegral : D → Bool

/-- How far `strtod` reads. -/
structure NumberReader where
  /-- The distance from the start to the end pointer. -/
  length : List UInt8 → Nat
  length_le : ∀ bytes, length bytes ≤ bytes.length

/-- `strtod`. -/
structure Strtod (D : Type) extends NumberReader where
  value : List UInt8 → D

/-- A string: bytes in front of a terminator. -/
structure CString where
  bytes : List UInt8
  noTerminator : 0 ∉ bytes

/-- `strlen`. -/
def strlen (s : CString) : Nat := s.bytes.length

/-! ## The tables -/

/-- An `event_e`. -/
inductive Event where
  | plus
  | minus
  | num
  | mul
  | div
  | lparen
  | rparen
  | lbracket
  | rbracket
  | lbrace
  | rbrace
  | pow
  | space
  | end_
  | other
  deriving DecidableEq, Repr

/-- An `assoc_e`. -/
inductive Assoc where
  | leftAssociative
  | rightAssociative
  deriving DecidableEq, Repr

/-- A `state_e`. -/
inductive State where
  | waitingForNum
  | waitingForOp
  deriving DecidableEq, Repr

/-- The byte of a character. -/
def byte (c : Char) : UInt8 := c.toUInt8

/-- `g_char_to_event_LUT`. -/
def charToEvent (c : UInt8) : Event :=
  if c = 0 then .end_
  else if c = byte '+' then .plus
  else if c = byte '-' then .minus
  else if c = byte '*' then .mul
  else if c = byte '/' then .div
  else if c = byte '^' then .pow
  else if c = byte '(' then .lparen
  else if c = byte ')' then .rparen
  else if c = byte '[' then .lbracket
  else if c = byte ']' then .rbracket
  else if c = byte '\x7b' then .lbrace
  else if c = byte '\x7d' then .rbrace
  else if c = byte ' ' ∨ c = byte '\t' ∨ c = byte '\n' ∨ c = byte '\r' ∨ c = 11 ∨ c = 12 then
    .space
  else if byte '0' ≤ c ∧ c ≤ byte '9' then .num
  else if c = byte '.' then .num
  else .other

/-- `g_op_precedence_LUT`. -/
def opPrecedence (op : UInt8) : Nat :=
  if op = byte '+' then 1
  else if op = byte '-' then 1
  else if op = byte '*' then 2
  else if op = byte '/' then 2
  else if op = byte '^' then 3
  else 0

/-- `g_op_assoc_LUT`. -/
def opAssoc (op : UInt8) : Assoc :=
  if op = byte '^' then .rightAssociative else .leftAssociative

/-- The data of a calculation, a `calc_data_t`.  `out` is what was written through the
pointer. -/
structure CalcData (D : Type) where
  cursor : List UInt8
  valuesStack : Stack D
  opsStack : Stack UInt8
  out : Option D
  unarySign : Int
  finish : Bool
  status : CalculatorStatus

/-- The byte under the cursor. -/
def currentChar (cursor : List UInt8) : UInt8 := cursor.headD 0

section

variable {D : Type} (A : Arithmetic D) (strtod : Strtod D)

/-- `g_op_func_LUT`. -/
def opFunc (op : UInt8) : Option (D → D → D) :=
  if op = byte '+' then some A.opAdd
  else if op = byte '-' then some A.opSub
  else if op = byte '*' then some A.opMul
  else if op = byte '/' then some A.opDiv
  else if op = byte '^' then some A.opPow
  else none

/-! ## The stacks -/

/-- `ValueStackPush`. -/
def valueStackPush (ctx : CalcData D) (value : D) : Option (CalcData D) := do
  let valuesStack ← stackPush ctx.valuesStack value
  some { ctx with valuesStack }

/-- `ValueStackPop`. -/
def valueStackPop (ctx : CalcData D) : Option (D × CalcData D) := do
  let value ← stackPeek ctx.valuesStack
  let valuesStack ← stackPop ctx.valuesStack
  some (value, { ctx with valuesStack })

/-- `OpStackPush`. -/
def opStackPush (ctx : CalcData D) (op : UInt8) : Option (CalcData D) := do
  let opsStack ← stackPush ctx.opsStack op
  some { ctx with opsStack }

/-- `OpStackPop`. -/
def opStackPop (ctx : CalcData D) : Option (UInt8 × CalcData D) := do
  let op ← stackPeek ctx.opsStack
  let opsStack ← stackPop ctx.opsStack
  some (op, { ctx with opsStack })

/-! ## Reductions -/

/-- `ApplyTopOperator`.  The value that was pushed last, the right operand, is the one the
source calls `lhs_value`. -/
def applyTopOperator (ctx : CalcData D) : Option (CalcData D × CalculatorStatus) := do
  let (op, ctx) ← opStackPop ctx
  let (lhsValue, ctx) ← valueStackPop ctx
  let (rhsValue, ctx) ← valueStackPop ctx
  if op = byte '/' ∧ A.isZero lhsValue = true then some (ctx, .mathError)
  else if op = byte '^' ∧ ((A.isZero lhsValue = true ∧ A.isZero rhsValue = true) ∨
      (A.isNegative rhsValue = true ∧ A.isIntegral lhsValue = false)) then
    some (ctx, .mathError)
  else
    match opFunc A op with
    | none => some (ctx, .syntaxError)
    | some func => do
        let ctx ← valueStackPush ctx (func rhsValue lhsValue)
        some (ctx, .success)

/-- The loop of `ReduceOperators`, for a number of rounds. -/
def reduceOperatorsLoop (opInput : UInt8) :
    Nat → CalcData D → Option (CalcData D × CalculatorStatus)
  | 0, _ => none
  | rounds + 1, ctx =>
      if stackIsEmpty ctx.opsStack then some (ctx, .success)
      else do
        let topOp ← stackPeek ctx.opsStack
        -- an open bracket ends the loop
        if opPrecedence topOp = 0 then some (ctx, .success)
        else if opPrecedence topOp < opPrecedence opInput ∨
            (opPrecedence topOp = opPrecedence opInput ∧ opAssoc opInput = .rightAssociative) then
          some (ctx, .success)
        else
          let (ctx, status) ← applyTopOperator A ctx
          if status ≠ .success then some (ctx, status)
          else reduceOperatorsLoop opInput rounds ctx

/-- `ReduceOperators`.  Every round takes an operator off the stack. -/
def reduceOperators (ctx : CalcData D) (opInput : UInt8) :
    Option (CalcData D × CalculatorStatus) := do
  let (ctx, status) ← reduceOperatorsLoop A opInput (stackSize ctx.opsStack + 1) ctx
  if status ≠ .success then some (ctx, status)
  else if opInput = 0 ∧ stackIsEmpty ctx.opsStack = false then some (ctx, .syntaxError)
  else some (ctx, .success)

/-- The loop of `ReduceUntilOpen`, for a number of rounds. -/
def reduceUntilOpenLoop (open_ : UInt8) :
    Nat → CalcData D → Option (CalcData D × CalculatorStatus)
  | 0, _ => none
  | rounds + 1, ctx =>
      if stackIsEmpty ctx.opsStack then some (ctx, .syntaxError)
      else do
        let topOp ← stackPeek ctx.opsStack
        if topOp = open_ then
          let (_, ctx) ← opStackPop ctx
          some (ctx, .success)
        else if topOp = byte '(' ∨ topOp = byte '[' ∨ topOp = byte '\x7b' then
          some (ctx, .syntaxError)
        else
          let (ctx, status) ← applyTopOperator A ctx
          if status ≠ .success then some (ctx, status)
          else reduceUntilOpenLoop open_ rounds ctx

/-- `ReduceUntilOpen`.  Every round takes an operator off the stack. -/
def reduceUntilOpen (ctx : CalcData D) (open_ : UInt8) :
    Option (CalcData D × CalculatorStatus) :=
  reduceUntilOpenLoop A open_ (stackSize ctx.opsStack + 1) ctx

/-! ## The actions -/

/-- `cursor += 1`. -/
def CalcData.advance (ctx : CalcData D) : CalcData D :=
  { ctx with cursor := ctx.cursor.drop 1 }

/-- `ActSpace`. -/
def actSpace (ctx : CalcData D) : Option (CalcData D × CalculatorStatus) :=
  some (ctx.advance, .success)

/-- `ActUnaryPlus`. -/
def actUnaryPlus (ctx : CalcData D) : Option (CalcData D × CalculatorStatus) :=
  some ({ ctx with unarySign := ctx.unarySign * 1 }.advance, .success)

/-- `ActUnaryMinus`. -/
def actUnaryMinus (ctx : CalcData D) : Option (CalcData D × CalculatorStatus) :=
  some ({ ctx with unarySign := ctx.unarySign * -1 }.advance, .success)

/-- `ActPushNumber`. -/
def actPushNumber (ctx : CalcData D) : Option (CalcData D × CalculatorStatus) :=
  if strtod.length ctx.cursor = 0 then some (ctx, .syntaxError)
  else do
    let value := A.opMul (strtod.value ctx.cursor) (A.ofInt ctx.unarySign)
    let cursor := ctx.cursor.drop (strtod.length ctx.cursor)
    let ctx ← valueStackPush ctx value
    some ({ ctx with unarySign := 1, cursor }, .success)

/-- `ActPushBinaryOp`.  The operator is pushed whatever the status. -/
def actPushBinaryOp (op : UInt8) (ctx : CalcData D) :
    Option (CalcData D × CalculatorStatus) := do
  let (ctx, status) ← reduceOperators A ctx op
  let ctx ← opStackPush ctx op
  some (ctx.advance, status)

/-- `ActPlus`. -/
def actPlus : CalcData D → Option (CalcData D × CalculatorStatus) :=
  actPushBinaryOp A (byte '+')

/-- `ActMinus`. -/
def actMinus : CalcData D → Option (CalcData D × CalculatorStatus) :=
  actPushBinaryOp A (byte '-')

/-- `ActMul`. -/
def actMul : CalcData D → Option (CalcData D × CalculatorStatus) :=
  actPushBinaryOp A (byte '*')

/-- `ActDiv`. -/
def actDiv : CalcData D → Option (CalcData D × CalculatorStatus) :=
  actPushBinaryOp A (byte '/')

/-- `ActPow`. -/
def actPow : CalcData D → Option (CalcData D × CalculatorStatus) :=
  actPushBinaryOp A (byte '^')

/-- An action for an opening bracket. -/
def actOpen (open_ : UInt8) (ctx : CalcData D) : Option (CalcData D × CalculatorStatus) := do
  let ctx ← opStackPush ctx open_
  some (ctx.advance, .success)

/-- `ActLParen`. -/
def actLParen : CalcData D → Option (CalcData D × CalculatorStatus) := actOpen (byte '(')

/-- `ActLBracket`. -/
def actLBracket : CalcData D → Option (CalcData D × CalculatorStatus) := actOpen (byte '[')

/-- `ActLBrace`. -/
def actLBrace : CalcData D → Option (CalcData D × CalculatorStatus) := actOpen (byte '\x7b')

/-- An action for a closing bracket. -/
def actClose (open_ : UInt8) (ctx : CalcData D) :
    Option (CalcData D × CalculatorStatus) := do
  let (ctx, status) ← reduceUntilOpen A ctx open_
  if status ≠ .success then some (ctx, status)
  else some (ctx.advance, .success)

/-- `ActRParen`. -/
def actRParen : CalcData D → Option (CalcData D × CalculatorStatus) := actClose A (byte '(')

/-- `ActRBracket`. -/
def actRBracket : CalcData D → Option (CalcData D × CalculatorStatus) := actClose A (byte '[')

/-- `ActRBrace`. -/
def actRBrace : CalcData D → Option (CalcData D × CalculatorStatus) :=
  actClose A (byte '\x7b')

/-- `ActEnd`. -/
def actEnd (ctx : CalcData D) : Option (CalcData D × CalculatorStatus) := do
  let (ctx, status) ← reduceOperators A ctx 0
  if status ≠ .success then some (ctx, status)
  else if stackSize ctx.valuesStack ≠ 1 ∨ stackIsEmpty ctx.opsStack = false then
    some (ctx, .syntaxError)
  else
    -- the stack has a value, so its top is not NULL
    let topVal ← stackPeek ctx.valuesStack
    some ({ ctx with out := some topVal, finish := true }, .success)

/-- `ActError`. -/
def actError (ctx : CalcData D) : Option (CalcData D × CalculatorStatus) :=
  some (ctx, .syntaxError)

/-! ## The machine -/

/-- `g_trans_LUT`: the next state and the action. -/
def transition : State → Event → State × (CalcData D → Option (CalcData D × CalculatorStatus))
  | .waitingForNum, .plus => (.waitingForNum, actUnaryPlus)
  | .waitingForNum, .minus => (.waitingForNum, actUnaryMinus)
  | .waitingForNum, .num => (.waitingForOp, actPushNumber A strtod)
  | .waitingForNum, .mul => (.waitingForNum, actError)
  | .waitingForNum, .div => (.waitingForNum, actError)
  | .waitingForNum, .lparen => (.waitingForNum, actLParen)
  | .waitingForNum, .rparen => (.waitingForNum, actError)
  | .waitingForNum, .lbracket => (.waitingForNum, actLBracket)
  | .waitingForNum, .rbracket => (.waitingForNum, actError)
  | .waitingForNum, .lbrace => (.waitingForNum, actLBrace)
  | .waitingForNum, .rbrace => (.waitingForNum, actError)
  | .waitingForNum, .pow => (.waitingForNum, actError)
  | .waitingForNum, .space => (.waitingForNum, actSpace)
  | .waitingForNum, .end_ => (.waitingForNum, actError)
  | .waitingForNum, .other => (.waitingForNum, actError)
  | .waitingForOp, .plus => (.waitingForNum, actPlus A)
  | .waitingForOp, .minus => (.waitingForNum, actMinus A)
  | .waitingForOp, .num => (.waitingForOp, actError)
  | .waitingForOp, .mul => (.waitingForNum, actMul A)
  | .waitingForOp, .div => (.waitingForNum, actDiv A)
  | .waitingForOp, .lparen => (.waitingForNum, actError)
  | .waitingForOp, .rparen => (.waitingForOp, actRParen A)
  | .waitingForOp, .lbracket => (.waitingForNum, actError)
  | .waitingForOp, .rbracket => (.waitingForOp, actRBracket A)
  | .waitingForOp, .lbrace => (.waitingForNum, actError)
  | .waitingForOp, .rbrace => (.waitingForOp, actRBrace A)
  | .waitingForOp, .pow => (.waitingForNum, actPow A)
  | .waitingForOp, .space => (.waitingForOp, actSpace)
  | .waitingForOp, .end_ => (.waitingForOp, actEnd A)
  | .waitingForOp, .other => (.waitingForOp, actError)

/-- `FsmStep`. -/
def fsmStep (ctx : CalcData D) (state : State) :
    Option (State × CalcData D × CalculatorStatus) := do
  let (nextState, actionFunc) :=
    transition A strtod state (charToEvent (currentChar ctx.cursor))
  let (ctx, status) ← actionFunc ctx
  some (nextState, ctx, status)

/-- The loop of `Calculate`, for a number of rounds. -/
def calculateLoop : Nat → CalcData D → State → Option (CalcData D)
  | 0, _, _ => none
  | rounds + 1, ctx, currentState =>
      if ctx.finish = false ∧ ctx.status = .success then do
        let (currentState, ctx, status) ← fsmStep A strtod ctx currentState
        calculateLoop rounds { ctx with status } currentState
      else some ctx

/-- Whether the allocations of the two stacks succeed. -/
structure Allocations where
  valuesStack : Bool
  opsStack : Bool

/-- `InitStacks`.  `none` is `ALLOC_ERROR`. -/
def initStacks (allocated : Allocations) (inputLength : Nat) :
    Option (Stack D × Stack UInt8) := do
  let valuesStack ← stackCreate allocated.valuesStack (inputLength + 1) 8
  let opsStack ← stackCreate allocated.opsStack (inputLength + 1) 1
  some (valuesStack, opsStack)

/-- `Calculate`: the status it returns and what it wrote to the result.  There is no result
when an assertion of a stack fails or the loop takes more than the given rounds. -/
def calculate (allocated : Allocations) (expression : CString) (rounds : Nat) :
    Option (CalculatorStatus × Option D) :=
  match initStacks allocated (strlen expression) with
  | none => some (.allocError, none)
  | some (valuesStack, opsStack) => do
      let ctx ← calculateLoop A strtod rounds
        { cursor := expression.bytes, valuesStack, opsStack, out := none, unarySign := 1,
          finish := false, status := .success } .waitingForNum
      some (ctx.status, ctx.out)

end

/-! ## Whole numbers -/

/-- Arithmetic on whole numbers, which `double` agrees with as long as they are small. -/
def wholeArithmetic : Arithmetic Int where
  opAdd := (· + ·)
  opSub := (· - ·)
  opMul := (· * ·)
  opDiv := Int.tdiv
  opPow x y := x ^ y.toNat
  ofInt := id
  isZero x := x == 0
  isNegative x := decide (x < 0)
  isIntegral _ := true

/-- A decimal digit. -/
def isDigit (c : UInt8) : Bool := decide (byte '0' ≤ c ∧ c ≤ byte '9')

/-- What `strtod` does with a number written in digits. -/
def wholeStrtod : Strtod Int where
  length bytes := (bytes.takeWhile isDigit).length
  length_le bytes := by
    exact (List.takeWhile_prefix _).length_le
  value bytes := (bytes.takeWhile isDigit).foldl (fun n c => 10 * n + (c.toNat - 48 : Nat)) 0

end Calc
end InfinityLabs
