import InfinityLabs.Calc.Tokens

/-!
# The reductions of the calculator

A point of the token machine is laid out on the two stacks: the left operands that wait on
the one, their operators and the open brackets on the other.  On such stacks
`ApplyTopOperator`, `ReduceOperators` and `ReduceUntilOpen` do what `apply`, `reduce` and
`collapse` do.
-/

namespace InfinityLabs
namespace Calc

open Ds Lib.Precedence

variable {D : Type}

/-! ## The layout of the stacks -/

/-- The left operands of waiting entries. -/
def waitingValues (waiting : Pending Op D) : List D := waiting.map Prod.fst

/-- The operators of waiting entries. -/
def waitingOps (waiting : Pending Op D) : List UInt8 := waiting.map fun entry => entry.2.byte

/-- The values in front of the open brackets. -/
def openedValues (opened : Open D) : List D := opened.flatMap fun entry => waitingValues entry.2

/-- The open brackets with the operators in front of each. -/
def openedOps (opened : Open D) : List UInt8 :=
  opened.flatMap fun entry => entry.1.opens :: waitingOps entry.2

/-- The data of a calculation that goes on. -/
def calcData (capacity : Nat) (cursor : List UInt8) (values : List D) (ops : List UInt8)
    (sign : Int) : CalcData D :=
  { cursor, valuesStack := ⟨values, capacity⟩, opsStack := ⟨ops, capacity⟩, out := none,
    unarySign := sign, finish := false, status := .success }

/-- The values on the stack. -/
def Reading.values : Reading D → List D
  | .num _ waiting opened => waitingValues waiting ++ openedValues opened
  | .op v waiting opened => v :: (waitingValues waiting ++ openedValues opened)

/-- The operators and brackets on the stack. -/
def Reading.ops : Reading D → List UInt8
  | .num _ waiting opened => waitingOps waiting ++ openedOps opened
  | .op _ waiting opened => waitingOps waiting ++ openedOps opened

/-- The signs read in front of an operand. -/
def Reading.sign : Reading D → Int
  | .num sign _ _ => sign
  | .op _ _ _ => 1

/-- What the machine waits for. -/
def Reading.state : Reading D → State
  | .num _ _ _ => .waitingForNum
  | .op _ _ _ => .waitingForOp

/-- A point of the token machine as the data of the calculator. -/
def Reading.data (r : Reading D) (capacity : Nat) (cursor : List UInt8) : CalcData D :=
  calcData capacity cursor r.values r.ops r.sign

/-- Both stacks have room for everything that is unread. -/
structure Reading.Fits (r : Reading D) (inputLength : Nat) (cursor : List UInt8) : Prop where
  values_le : r.values.length + cursor.length ≤ inputLength
  ops_le : r.ops.length + cursor.length ≤ inputLength

/-- The status of a refusal. -/
def Refusal.status : Refusal → CalculatorStatus
  | .math => .mathError
  | .syntax_ => .syntaxError

/-- What `Calculate` reports of a value or a refusal. -/
def verdict : Except Refusal D → CalculatorStatus × Option D
  | .ok v => (.success, some v)
  | .error e => (e.status, none)

/-! ## Bytes and events -/

/-- The event of an operator. -/
def Op.event : Op → Event
  | .add => .plus
  | .sub => .minus
  | .mul => .mul
  | .div => .div
  | .pow => .pow

/-- The event of an opening bracket. -/
def Bracket.openEvent : Bracket → Event
  | .paren => .lparen
  | .bracket => .lbracket
  | .brace => .lbrace

/-- The event of a closing bracket. -/
def Bracket.closeEvent : Bracket → Event
  | .paren => .rparen
  | .bracket => .rbracket
  | .brace => .rbrace

/-- The kinds of events. -/
theorem event_cases (e : Event) :
    e = .end_ ∨ e = .space ∨ e = .num ∨ e = .other ∨ (∃ o : Op, e = o.event) ∨
      (∃ b : Bracket, e = b.openEvent) ∨ ∃ b : Bracket, e = b.closeEvent := by
  cases e with
  | end_ => exact Or.inl rfl
  | space => exact Or.inr (Or.inl rfl)
  | num => exact Or.inr (Or.inr (Or.inl rfl))
  | other => exact Or.inr (Or.inr (Or.inr (Or.inl rfl)))
  | plus => exact Or.inr (Or.inr (Or.inr (Or.inr (Or.inl ⟨.add, rfl⟩))))
  | minus => exact Or.inr (Or.inr (Or.inr (Or.inr (Or.inl ⟨.sub, rfl⟩))))
  | mul => exact Or.inr (Or.inr (Or.inr (Or.inr (Or.inl ⟨.mul, rfl⟩))))
  | div => exact Or.inr (Or.inr (Or.inr (Or.inr (Or.inl ⟨.div, rfl⟩))))
  | pow => exact Or.inr (Or.inr (Or.inr (Or.inr (Or.inl ⟨.pow, rfl⟩))))
  | lparen => exact Or.inr (Or.inr (Or.inr (Or.inr (Or.inr (Or.inl ⟨.paren, rfl⟩)))))
  | lbracket => exact Or.inr (Or.inr (Or.inr (Or.inr (Or.inr (Or.inl ⟨.bracket, rfl⟩)))))
  | lbrace => exact Or.inr (Or.inr (Or.inr (Or.inr (Or.inr (Or.inl ⟨.brace, rfl⟩)))))
  | rparen => exact Or.inr (Or.inr (Or.inr (Or.inr (Or.inr (Or.inr ⟨.paren, rfl⟩)))))
  | rbracket => exact Or.inr (Or.inr (Or.inr (Or.inr (Or.inr (Or.inr ⟨.bracket, rfl⟩)))))
  | rbrace => exact Or.inr (Or.inr (Or.inr (Or.inr (Or.inr (Or.inr ⟨.brace, rfl⟩)))))

section Tokens

variable {strtod : Strtod D} {c : UInt8} {rest : List UInt8}

@[simp] theorem tokens_nil : tokens strtod [] = [] := by
  rw [tokens]

theorem tokens_end (h : charToEvent c = .end_) : tokens strtod (c :: rest) = [] := by
  rw [tokens, h]

theorem tokens_space (h : charToEvent c = .space) :
    tokens strtod (c :: rest) = tokens strtod rest := by
  rw [tokens, h]

theorem tokens_other (h : charToEvent c = .other) : tokens strtod (c :: rest) = [.bad] := by
  rw [tokens, h]

theorem tokens_num (h : charToEvent c = .num) :
    tokens strtod (c :: rest) =
      if strtod.length (c :: rest) = 0 then [.bad]
      else .number (strtod.value (c :: rest)) ::
        tokens strtod ((c :: rest).drop (strtod.length (c :: rest))) := by
  rw [tokens, h]
  by_cases hzero : strtod.length (c :: rest) = 0
  · simp only [hzero, if_pos]
  · obtain ⟨k, hk⟩ := Nat.exists_eq_succ_of_ne_zero hzero
    simp only [hk, Nat.succ_eq_add_one, Nat.add_sub_cancel, List.drop_succ_cons]

theorem tokens_op {o : Op} (h : charToEvent c = o.event) :
    tokens strtod (c :: rest) = .op o :: tokens strtod rest := by
  rw [tokens, h]
  cases o <;> rfl

theorem tokens_opening {b : Bracket} (h : charToEvent c = b.openEvent) :
    tokens strtod (c :: rest) = .opening b :: tokens strtod rest := by
  rw [tokens, h]
  cases b <;> rfl

theorem tokens_closing {b : Bracket} (h : charToEvent c = b.closeEvent) :
    tokens strtod (c :: rest) = .closing b :: tokens strtod rest := by
  rw [tokens, h]
  cases b <;> rfl

/-- Induction along the tokens of a string. -/
theorem bytes_induction (reader : NumberReader) {P : List UInt8 → Prop} (hnil : P [])
    (hend : ∀ c rest, charToEvent c = .end_ → P (c :: rest))
    (hspace : ∀ c rest, charToEvent c = .space → P rest → P (c :: rest))
    (hnum : ∀ c rest, charToEvent c = .num →
      (reader.length (c :: rest) ≠ 0 → P ((c :: rest).drop (reader.length (c :: rest)))) →
        P (c :: rest))
    (hother : ∀ c rest, charToEvent c = .other → P (c :: rest))
    (hop : ∀ (o : Op) c rest, charToEvent c = o.event → P rest → P (c :: rest))
    (hopening : ∀ (b : Bracket) c rest, charToEvent c = b.openEvent → P rest → P (c :: rest))
    (hclosing : ∀ (b : Bracket) c rest, charToEvent c = b.closeEvent → P rest → P (c :: rest))
    (bytes : List UInt8) : P bytes := by
  induction hlength : bytes.length using Nat.strongRecOn generalizing bytes with
  | _ n ih =>
      subst hlength
      cases bytes with
      | nil => exact hnil
      | cons c rest =>
          have hrest : P rest := ih _ (Nat.lt_succ_self _) rest rfl
          rcases event_cases (charToEvent c) with
            hevent | hevent | hevent | hevent | ⟨o, hevent⟩ | ⟨b, hevent⟩ | ⟨b, hevent⟩
          · exact hend c rest hevent
          · exact hspace c rest hevent hrest
          · refine hnum c rest hevent fun hreads => ih _ ?_ _ rfl
            rw [List.length_drop, List.length_cons]
            omega
          · exact hother c rest hevent
          · exact hop o c rest hevent hrest
          · exact hopening b c rest hevent hrest
          · exact hclosing b c rest hevent hrest

end Tokens

theorem charToEvent_op (o : Op) : charToEvent o.byte = o.event := by
  cases o <;> decide

theorem charToEvent_opens (b : Bracket) : charToEvent b.opens = b.openEvent := by
  cases b <;> decide

theorem charToEvent_closes (b : Bracket) : charToEvent b.closes = b.closeEvent := by
  cases b <;> decide

/-- An operator has a precedence. -/
theorem opPrecedence_byte (o : Op) : opPrecedence o.byte ≠ 0 :=
  Nat.one_le_iff_ne_zero.mp (opTable_prec_pos o)

/-- An open bracket has none. -/
theorem opPrecedence_opens (b : Bracket) : opPrecedence b.opens = 0 := by
  cases b <;> decide

theorem op_byte_ne_opens (o : Op) (b : Bracket) : o.byte ≠ b.opens := by
  intro h
  exact opPrecedence_byte o (h ▸ opPrecedence_opens b)

theorem opens_injective {b b' : Bracket} (h : b.opens = b'.opens) : b = b' := by
  revert h
  cases b <;> cases b' <;> decide

/-- The test of `ReduceUntilOpen` for an open bracket. -/
theorem isOpen_opens (b : Bracket) :
    b.opens = byte '(' ∨ b.opens = byte '[' ∨ b.opens = byte '\x7b' := by
  cases b <;> decide

theorem not_isOpen_byte (o : Op) :
    ¬ (o.byte = byte '(' ∨ o.byte = byte '[' ∨ o.byte = byte '\x7b') := by
  cases o <;> decide

/-! ## Reductions -/

section Reductions

variable {A : Arithmetic D} {capacity : Nat} {cursor : List UInt8} {sign : Int}

/-- The operation of an operator. -/
def Op.func (A : Arithmetic D) : Op → D → D → D
  | .add => A.opAdd
  | .sub => A.opSub
  | .mul => A.opMul
  | .div => A.opDiv
  | .pow => A.opPow

theorem opFunc_byte (o : Op) : opFunc A o.byte = some (o.func A) := by
  cases o <;> rfl

theorem op_byte_eq_div (o : Op) : o.byte = byte '/' ↔ o = .div := by
  cases o <;> decide

theorem op_byte_eq_pow (o : Op) : o.byte = byte '^' ↔ o = .pow := by
  cases o <;> decide

/-- The tests of `ApplyTopOperator`, for any operator. -/
theorem apply_eq (o : Op) (lhs rhs : D) :
    apply A o lhs rhs =
      if o = .div ∧ A.isZero rhs = true then none
      else if o = .pow ∧ ((A.isZero rhs = true ∧ A.isZero lhs = true) ∨
          (A.isNegative lhs = true ∧ A.isIntegral rhs = false)) then none
      else some (o.func A lhs rhs) := by
  cases o <;> simp [apply, Op.func]

/-- `ApplyTopOperator` applies the operator to the two values on top. -/
theorem applyTopOperator_calcData (o : Op) (lhs rhs : D) {values : List D} {ops : List UInt8}
    (hroom : values.length < capacity) :
    applyTopOperator A (calcData capacity cursor (rhs :: lhs :: values) (o.byte :: ops) sign) =
      some (match apply A o lhs rhs with
        | none => (calcData capacity cursor values ops sign, .mathError)
        | some r => (calcData capacity cursor (r :: values) ops sign, .success)) := by
  simp only [applyTopOperator, opStackPop, valueStackPop, valueStackPush, calcData,
    stackPeek_cons, stackPop_cons, Option.bind_eq_bind, Option.bind_some, op_byte_eq_div,
    op_byte_eq_pow, opFunc_byte, stackPush_of_lt hroom, apply_eq]
  split
  · rfl
  · split <;> rfl

/-- A reduction ended with these entries left, or with a rejected operation. -/
def Reduced (capacity : Nat) (cursor : List UInt8) (values : List D) (ops : List UInt8)
    (sign : Int) (result : Option (D × Pending Op D))
    (outcome : CalcData D × CalculatorStatus) : Prop :=
  match result with
  | some (v, waiting) =>
      outcome = (calcData capacity cursor (v :: (waitingValues waiting ++ values))
        (waitingOps waiting ++ ops) sign, .success)
  | none =>
      outcome.2 = .mathError ∧ outcome.1.out = none ∧
        outcome.1.opsStack.elements.length < outcome.1.opsStack.capacity

/-- The test of `ReduceOperators` for an operator that is kept. -/
def keeps (opInput : UInt8) (o : Op) : Prop :=
  opPrecedence o.byte < opPrecedence opInput ∨
    (opPrecedence o.byte = opPrecedence opInput ∧ opAssoc opInput = .rightAssociative)

instance (opInput : UInt8) (o : Op) : Decidable (keeps opInput o) :=
  inferInstanceAs (Decidable (_ ∨ _))

variable (A capacity cursor sign)

/-- A round of `ReduceOperators` on a waiting operator. -/
theorem reduceOperatorsLoop_succ (opInput : UInt8) (rounds : Nat) (o : Op) (values : List D)
    (ops : List UInt8) :
    reduceOperatorsLoop A opInput (rounds + 1)
        (calcData capacity cursor values (o.byte :: ops) sign) =
      if keeps opInput o then
        some (calcData capacity cursor values (o.byte :: ops) sign, .success)
      else
        (applyTopOperator A (calcData capacity cursor values (o.byte :: ops) sign)).bind fun out =>
          if out.2 ≠ .success then some out
          else reduceOperatorsLoop A opInput rounds out.1 := by
  simp only [reduceOperatorsLoop, calcData, stackIsEmpty_cons, stackPeek_cons, keeps,
    opPrecedence_byte o, if_false, Bool.false_eq_true, Option.bind_eq_bind, Option.bind_some]
  rfl

variable {A capacity cursor sign}

/-- `ReduceOperators` stops at an open bracket and at the bottom. -/
theorem reduceOperatorsLoop_stop (opInput : UInt8) (rounds : Nat) (values : List D)
    {ops : List UInt8} (hops : ∀ c ∈ ops.head?, opPrecedence c = 0) :
    reduceOperatorsLoop A opInput (rounds + 1) (calcData capacity cursor values ops sign) =
      some (calcData capacity cursor values ops sign, .success) := by
  cases ops with
  | nil => rfl
  | cons c ops =>
      simp only [reduceOperatorsLoop, calcData, stackIsEmpty_cons, stackPeek_cons, hops c rfl,
        if_false, Bool.false_eq_true, Option.bind_eq_bind, Option.bind_some, if_true]

variable (A cursor sign)

/-- The loop of `ReduceOperators` applies the waiting entries that the input releases. -/
theorem reduceOperatorsLoop_calcData (opInput : UInt8) (waiting : Pending Op D) {rounds : Nat}
    (v : D) {values : List D} {ops : List UInt8}
    (hops : ∀ c ∈ ops.head?, opPrecedence c = 0)
    (hvalues : (waitingValues waiting ++ values).length < capacity)
    (hlength : (waitingOps waiting ++ ops).length < capacity)
    (hrounds : waiting.length < rounds) :
    ∃ outcome, reduceOperatorsLoop A opInput rounds
        (calcData capacity cursor (v :: (waitingValues waiting ++ values))
          (waitingOps waiting ++ ops) sign) = some outcome ∧
      Reduced capacity cursor values ops sign
        (reduceWhile (apply A) (fun o => ¬ keeps opInput o) v waiting) outcome := by
  induction waiting generalizing v rounds with
  | nil =>
      obtain ⟨k, rfl⟩ := Nat.exists_eq_add_one_of_ne_zero (Nat.ne_of_gt hrounds)
      exact ⟨_, reduceOperatorsLoop_stop opInput k _ hops, rfl⟩
  | cons entry rest ih =>
      obtain ⟨l, o⟩ := entry
      obtain ⟨k, rfl⟩ := Nat.exists_eq_add_one_of_ne_zero (Nat.ne_of_gt (Nat.zero_lt_of_lt hrounds))
      have hround := reduceOperatorsLoop_succ A capacity cursor sign opInput k o
        (v :: l :: (waitingValues rest ++ values)) (waitingOps rest ++ ops)
      -- an operator that is kept ends both loops, another one is applied in both
      by_cases hkeep : keeps opInput o
      · rw [if_pos hkeep] at hround
        refine ⟨_, hround, ?_⟩
        rw [reduceWhile, if_neg (not_not.mpr hkeep)]
        exact rfl
      · have hroom : (waitingValues rest ++ values).length < capacity := Nat.lt_of_succ_lt hvalues
        have hroomOps : (waitingOps rest ++ ops).length < capacity := Nat.lt_of_succ_lt hlength
        rw [if_neg hkeep, applyTopOperator_calcData o l v hroom] at hround
        rw [reduceWhile, if_pos hkeep]
        cases hres : apply A o l v with
        | none =>
            rw [hres] at hround
            exact ⟨_, hround, rfl, rfl, hroomOps⟩
        | some r =>
            rw [hres] at hround
            obtain ⟨outcome, hloop, hreduced⟩ :=
              ih r hroom hroomOps (Nat.lt_of_succ_lt_succ hrounds)
            exact ⟨outcome, hround.trans hloop, hreduced⟩

variable {A cursor sign}

variable (A capacity cursor sign)

/-- A round of `ReduceUntilOpen` on a waiting operator. -/
theorem reduceUntilOpenLoop_succ (b : Bracket) (rounds : Nat) (o : Op) (values : List D)
    (ops : List UInt8) :
    reduceUntilOpenLoop A b.opens (rounds + 1)
        (calcData capacity cursor values (o.byte :: ops) sign) =
      (applyTopOperator A (calcData capacity cursor values (o.byte :: ops) sign)).bind fun out =>
        if out.2 ≠ .success then some out
        else reduceUntilOpenLoop A b.opens rounds out.1 := by
  simp only [reduceUntilOpenLoop, calcData, stackIsEmpty_cons, stackPeek_cons,
    op_byte_ne_opens o b, not_isOpen_byte o, if_false, Bool.false_eq_true, Option.bind_eq_bind,
    Option.bind_some]

/-- A round of `ReduceUntilOpen` on an open bracket. -/
theorem reduceUntilOpenLoop_opens (b b' : Bracket) (rounds : Nat) (values : List D)
    (ops : List UInt8) :
    reduceUntilOpenLoop A b.opens (rounds + 1)
        (calcData capacity cursor values (b'.opens :: ops) sign) =
      if b' = b then some (calcData capacity cursor values ops sign, .success)
      else some (calcData capacity cursor values (b'.opens :: ops) sign, .syntaxError) := by
  have hopens : b'.opens = b.opens ↔ b' = b := ⟨opens_injective, fun h => h ▸ rfl⟩
  simp only [reduceUntilOpenLoop, calcData, stackIsEmpty_cons, stackPeek_cons, opStackPop,
    stackPop_cons, hopens, isOpen_opens b', if_true, Bool.false_eq_true, if_false,
    Option.bind_eq_bind, Option.bind_some]

variable {A capacity cursor sign}

/-- The outcome of an action is the one of the token machine. -/
def Agrees (capacity : Nat) (cursor : List UInt8) (result : Except Refusal (Reading D))
    (outcome : CalcData D × CalculatorStatus) : Prop :=
  match result with
  | .ok r => outcome = (r.data capacity cursor, .success)
  | .error e => outcome.2 = e.status ∧ outcome.1.out = none

/-- `ReduceUntilOpen` at an open bracket and at the bottom. -/
theorem reduceUntilOpenLoop_stop (b : Bracket) (rounds : Nat) (v : D) (opened : Open D) :
    ∃ outcome, reduceUntilOpenLoop A b.opens (rounds + 1)
        (calcData capacity cursor (v :: openedValues opened) (openedOps opened) 1) =
          some outcome ∧
      Agrees capacity cursor (close b v opened) outcome := by
  cases opened with
  | nil => exact ⟨_, rfl, rfl, rfl⟩
  | cons entry opened =>
      obtain ⟨b', waiting⟩ := entry
      have hround := reduceUntilOpenLoop_opens A capacity cursor 1 b b' rounds
        (v :: (waitingValues waiting ++ openedValues opened))
        (waitingOps waiting ++ openedOps opened)
      rw [close]
      by_cases hsame : b' = b
      · rw [if_pos hsame] at hround ⊢
        exact ⟨_, hround, rfl⟩
      · rw [if_neg hsame] at hround ⊢
        exact ⟨_, hround, rfl, rfl⟩

variable (A cursor)

/-- The loop of `ReduceUntilOpen` applies all waiting entries and takes the bracket. -/
theorem reduceUntilOpenLoop_calcData (b : Bracket) (waiting : Pending Op D) {rounds : Nat}
    (v : D) {opened : Open D}
    (hvalues : (waitingValues waiting ++ openedValues opened).length < capacity)
    (hrounds : waiting.length < rounds) :
    ∃ outcome, reduceUntilOpenLoop A b.opens rounds
        (calcData capacity cursor (v :: (waitingValues waiting ++ openedValues opened))
          (waitingOps waiting ++ openedOps opened) 1) = some outcome ∧
      Agrees capacity cursor ((Reading.op v waiting opened).step A (.closing b)) outcome := by
  induction waiting generalizing v rounds with
  | nil =>
      obtain ⟨k, rfl⟩ := Nat.exists_eq_add_one_of_ne_zero (Nat.ne_of_gt hrounds)
      exact reduceUntilOpenLoop_stop b k v opened
  | cons entry rest ih =>
      obtain ⟨l, o⟩ := entry
      obtain ⟨k, rfl⟩ := Nat.exists_eq_add_one_of_ne_zero (Nat.ne_of_gt (Nat.zero_lt_of_lt hrounds))
      have hroom : (waitingValues rest ++ openedValues opened).length < capacity :=
        Nat.lt_of_succ_lt hvalues
      have hround := reduceUntilOpenLoop_succ A capacity cursor 1 b k o
        (v :: l :: (waitingValues rest ++ openedValues opened))
        (waitingOps rest ++ openedOps opened)
      rw [applyTopOperator_calcData o l v hroom] at hround
      -- the bracket applies every entry, so the rounds are those of `collapse`
      rw [Reading.step, collapse]
      cases hres : apply A o l v with
      | none =>
          rw [hres] at hround
          exact ⟨_, hround, rfl, rfl⟩
      | some r =>
          rw [hres] at hround
          obtain ⟨outcome, hloop, hout⟩ := ih r hroom (Nat.lt_of_succ_lt_succ hrounds)
          exact ⟨outcome, hround.trans hloop, hout⟩

/-- An operator keeps the entries that its table does not release. -/
theorem not_keeps_byte (input top : Op) : ¬ keeps input.byte top ↔ opTable.Releases input top := by
  rw [keeps, OpTable.Releases, not_iff_not]
  simp only [opTable, decide_eq_true_eq]

/-- The terminator keeps no entry. -/
theorem not_keeps_zero (o : Op) : ¬ keeps 0 o := by
  have hpos := opPrecedence_byte o
  have hzero : opPrecedence 0 = 0 := by decide
  rw [keeps, hzero]
  omega

/-- The stack below the waiting entries begins with a bracket. -/
theorem openedOps_head (opened : Open D) : ∀ c ∈ (openedOps opened).head?, opPrecedence c = 0 := by
  intro c hc
  cases opened with
  | nil => cases hc
  | cons entry rest =>
      obtain rfl := Option.some.inj hc
      exact opPrecedence_opens entry.1

theorem length_waitingOps (waiting : Pending Op D) : (waitingOps waiting).length = waiting.length :=
  List.length_map _

/-- `ReduceOperators` for an operator. -/
theorem reduceOperators_op (v : D) (waiting : Pending Op D) (opened : Open D) (o : Op)
    (hvalues : (waitingValues waiting ++ openedValues opened).length < capacity)
    (hlength : (waitingOps waiting ++ openedOps opened).length < capacity) :
    ∃ outcome, reduceOperators A ((Reading.op v waiting opened).data capacity cursor) o.byte =
        some outcome ∧
      Reduced capacity cursor (openedValues opened) (openedOps opened) 1
        (reduce (apply A) opTable o v waiting) outcome := by
  have hrounds : waiting.length < (waitingOps waiting ++ openedOps opened).length + 1 := by
    rw [List.length_append, length_waitingOps]
    omega
  obtain ⟨outcome, hloop, hreduced⟩ := reduceOperatorsLoop_calcData A cursor 1 o.byte waiting v
    (openedOps_head opened) hvalues hlength hrounds
  rw [reduceWhile_congr (apply A) (not_keeps_byte o)] at hreduced
  -- the test behind the loop is for the terminator only
  have hne : o.byte ≠ 0 := by
    cases o <;> decide
  refine ⟨outcome, ?_, hreduced⟩
  have heq : reduceOperators A ((Reading.op v waiting opened).data capacity cursor) o.byte =
      (some outcome).bind fun out => if out.2 ≠ .success then some out
        else if o.byte = 0 ∧ stackIsEmpty out.1.opsStack = false then some (out.1, .syntaxError)
        else some (out.1, .success) := by
    rw [← hloop]
    rfl
  rw [heq, Option.bind_some]
  by_cases hstatus : outcome.2 = .success
  · rw [if_neg (not_not.mpr hstatus), if_neg (fun h => hne h.1), ← hstatus]
  · rw [if_pos hstatus]

/-- `ReduceOperators` for the terminator, and the test behind it. -/
theorem reduceOperators_zero (v : D) (waiting : Pending Op D) (opened : Open D)
    (hvalues : (waitingValues waiting ++ openedValues opened).length < capacity)
    (hlength : (waitingOps waiting ++ openedOps opened).length < capacity) :
    ∃ outcome, reduceOperators A ((Reading.op v waiting opened).data capacity cursor) 0 =
        some outcome ∧
      match collapse (apply A) v waiting with
      | none => outcome.2 = .mathError ∧ outcome.1.out = none
      | some v' =>
          outcome = (calcData capacity cursor (v' :: openedValues opened) (openedOps opened) 1,
            if opened = [] then .success else .syntaxError) := by
  have hrounds : waiting.length < (waitingOps waiting ++ openedOps opened).length + 1 := by
    rw [List.length_append, length_waitingOps]
    omega
  obtain ⟨outcome, hloop, hreduced⟩ := reduceOperatorsLoop_calcData A cursor 1 0 waiting v
    (openedOps_head opened) hvalues hlength hrounds
  rw [reduceWhile_all (apply A) not_keeps_zero] at hreduced
  have heq : reduceOperators A ((Reading.op v waiting opened).data capacity cursor) 0 =
      (some outcome).bind fun out => if out.2 ≠ .success then some out
        else if stackIsEmpty out.1.opsStack = false then some (out.1, .syntaxError)
        else some (out.1, .success) := by
    rw [← hloop]
    simp only [reduceOperators, true_and]
    rfl
  rw [heq, Option.bind_some]
  cases hres : collapse (apply A) v waiting with
  | none =>
      rw [hres] at hreduced
      obtain ⟨hstatus, hout, -⟩ := hreduced
      refine ⟨outcome, ?_, hstatus, hout⟩
      rw [hstatus]
      exact if_pos (by decide)
  | some v' =>
      rw [hres] at hreduced
      obtain rfl := hreduced
      refine ⟨_, ?_, rfl⟩
      cases opened with
      | nil => rfl
      | cons entry rest => rfl

end Reductions

end Calc
end InfinityLabs
