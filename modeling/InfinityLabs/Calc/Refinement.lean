import InfinityLabs.Calc.Reductions

/-!
# The calculator refines its machine on tokens

Every point of `Calculate` between two tokens is a point of the token machine.  The stacks
together with the unread bytes never exceed the length of the expression, so no push finds a
stack full; behind an operand there is one value more than there are operators, so no pop
finds one empty.
-/

namespace InfinityLabs
namespace Calc

open Ds Lib.Precedence

variable {D : Type}

/-! ## The actions -/

section Actions

variable {A : Arithmetic D} {strtod : Strtod D} {inputLength : Nat} {c : UInt8}
  {rest : List UInt8}

/-- The outcome of a step is the one of the token machine. -/
def Follows (capacity : Nat) (cursor : List UInt8) (result : Except Refusal (Reading D))
    (outcome : State × CalcData D × CalculatorStatus) : Prop :=
  match result with
  | .ok r => outcome = (r.state, r.data capacity cursor, .success)
  | .error e => outcome.2.2 = e.status ∧ outcome.2.1.out = none

/-- A step whose action agrees with the token machine follows it. -/
theorem fsmStep_of_agrees {r : Reading D} {state : State} {cursor cursor' : List UInt8}
    {action : CalcData D → Option (CalcData D × CalculatorStatus)}
    {outcome : CalcData D × CalculatorStatus} {result : Except Refusal (Reading D)}
    {capacity : Nat}
    (htransition : transition A strtod r.state (charToEvent (currentChar cursor)) =
      (state, action))
    (haction : action (r.data capacity cursor) = some outcome)
    (hagrees : Agrees capacity cursor' result outcome)
    (hstate : ∀ r', result = .ok r' → r'.state = state) :
    ∃ out, fsmStep A strtod (r.data capacity cursor) r.state = some out ∧
      Follows capacity cursor' result out := by
  have hcursor : (r.data capacity cursor).cursor = cursor := rfl
  refine ⟨(state, outcome), ?_, ?_⟩
  · simp only [fsmStep, hcursor, htransition, haction, Option.bind_eq_bind, Option.bind_some]
  · cases result with
    | error e => exact hagrees
    | ok r' =>
        obtain rfl := hagrees
        rw [Follows, hstate r' rfl]

/-- A refused token. -/
theorem fsmStep_refused {r : Reading D} {state : State} {cursor cursor' : List UInt8}
    {capacity : Nat}
    (htransition : transition A strtod r.state (charToEvent (currentChar cursor)) =
      (state, actError)) :
    ∃ out, fsmStep A strtod (r.data capacity cursor) r.state = some out ∧
      Follows capacity cursor' (.error .syntax_) out :=
  fsmStep_of_agrees htransition rfl ⟨rfl, rfl⟩ (fun _ h => nomatch h)

theorem transition_num_op (o : Op) :
    transition A strtod .waitingForNum o.event =
      (.waitingForNum, match o.sign? with
        | some .plus => actUnaryPlus
        | some .minus => actUnaryMinus
        | none => actError) := by
  cases o <;> rfl

theorem transition_op_op (o : Op) :
    transition A strtod .waitingForOp o.event = (.waitingForNum, actPushBinaryOp A o.byte) := by
  cases o <;> rfl

theorem transition_num_opening (b : Bracket) :
    transition A strtod .waitingForNum b.openEvent = (.waitingForNum, actOpen b.opens) := by
  cases b <;> rfl

theorem transition_op_opening (b : Bracket) :
    transition A strtod .waitingForOp b.openEvent = (.waitingForNum, actError) := by
  cases b <;> rfl

theorem transition_num_closing (b : Bracket) :
    transition A strtod .waitingForNum b.closeEvent = (.waitingForNum, actError) := by
  cases b <;> rfl

theorem transition_op_closing (b : Bracket) :
    transition A strtod .waitingForOp b.closeEvent = (.waitingForOp, actClose A b.opens) := by
  cases b <;> rfl

/-- `ActPushBinaryOp` behind an operand. -/
theorem actPushBinaryOp_data {v : D} {waiting : Pending Op D} {opened : Open D} (o : Op)
    (hfits : (Reading.op v waiting opened).Fits inputLength (c :: rest)) :
    ∃ outcome, actPushBinaryOp A o.byte
        ((Reading.op v waiting opened).data (inputLength + 1) (c :: rest)) = some outcome ∧
      Agrees (inputLength + 1) rest ((Reading.op v waiting opened).step A (.op o)) outcome := by
  obtain ⟨hvalues, hops⟩ := hfits
  simp only [Reading.values, Reading.ops, List.length_cons] at hvalues hops
  have hroomValues : (waitingValues waiting ++ openedValues opened).length < inputLength + 1 := by
    omega
  have hroomOps : (waitingOps waiting ++ openedOps opened).length < inputLength + 1 := by
    omega
  obtain ⟨outcome, hreduce, hreduced⟩ := reduceOperators_op A (c :: rest) v waiting opened o
    hroomValues hroomOps
  have hact : actPushBinaryOp A o.byte
      ((Reading.op v waiting opened).data (inputLength + 1) (c :: rest)) =
        (stackPush outcome.1.opsStack o.byte).bind fun opsStack =>
          some ({ outcome.1 with opsStack }.advance, outcome.2) := by
    rw [actPushBinaryOp, hreduce]
    simp only [opStackPush, Option.bind_eq_bind, Option.bind_some, Option.bind_assoc]
  rw [hact, Reading.step]
  cases hres : reduce (apply A) opTable o v waiting with
  | none =>
      rw [hres] at hreduced
      obtain ⟨hstatus, hout, hroom⟩ := hreduced
      -- the operator is pushed behind a failed reduction too
      rw [stackPush_of_lt hroom]
      exact ⟨_, rfl, hstatus, hout⟩
  | some result =>
      obtain ⟨v', waiting'⟩ := result
      rw [hres] at hreduced
      obtain rfl := hreduced
      -- the entries that are left make room for the operator
      have hsuffix := (reduceWhile_suffix (apply A) hres).length_le
      have hroom : (waitingOps waiting' ++ openedOps opened).length < inputLength + 1 := by
        rw [List.length_append, length_waitingOps] at hroomOps ⊢
        omega
      refine ⟨_, ?_, rfl⟩
      simp only [calcData, stackPush_of_lt hroom]
      rfl

/-- An operator under the cursor. -/
theorem fsmStep_op {r : Reading D} {o : Op} (hevent : charToEvent c = o.event)
    (hfits : r.Fits inputLength (c :: rest)) :
    ∃ out, fsmStep A strtod (r.data (inputLength + 1) (c :: rest)) r.state = some out ∧
      Follows (inputLength + 1) rest (r.step A (.op o)) out := by
  cases r with
  | num sign waiting opened =>
      have htransition : transition A strtod .waitingForNum (charToEvent c) = _ :=
        (congrArg _ hevent).trans (transition_num_op o)
      -- in front of an operand the table knows signs only
      rw [Reading.step]
      cases hsign : o.sign? with
      | none =>
          rw [hsign] at htransition
          exact fsmStep_refused htransition
      | some s =>
          rw [hsign] at htransition
          have hstate : ∀ r', (.ok (.num (sign * s.factor) waiting opened) :
              Except Refusal (Reading D)) = .ok r' → r'.state = .waitingForNum := by
            intro r' hr
            obtain rfl := Except.ok.inj hr
            rfl
          cases s with
          | plus => exact fsmStep_of_agrees htransition rfl rfl hstate
          | minus => exact fsmStep_of_agrees htransition rfl rfl hstate
  | op v waiting opened =>
      have htransition : transition A strtod .waitingForOp (charToEvent c) = _ :=
        (congrArg _ hevent).trans (transition_op_op o)
      obtain ⟨outcome, haction, hagrees⟩ := actPushBinaryOp_data (A := A) o hfits
      refine fsmStep_of_agrees htransition haction hagrees ?_
      intro r' hr
      rw [Reading.step] at hr
      split at hr
      · cases hr
      · obtain rfl := Except.ok.inj hr
        rfl

/-- An opening bracket under the cursor. -/
theorem fsmStep_opening {r : Reading D} {b : Bracket} (hevent : charToEvent c = b.openEvent)
    (hfits : r.Fits inputLength (c :: rest)) :
    ∃ out, fsmStep A strtod (r.data (inputLength + 1) (c :: rest)) r.state = some out ∧
      Follows (inputLength + 1) rest (r.step A (.opening b)) out := by
  cases r with
  | op v waiting opened =>
      exact fsmStep_refused ((congrArg _ hevent).trans (transition_op_opening b))
  | num sign waiting opened =>
      have hroom : (waitingOps waiting ++ openedOps opened).length < inputLength + 1 := by
        have hops := hfits.ops_le
        simp only [Reading.ops, List.length_cons] at hops
        omega
      have haction : actOpen b.opens
          ((Reading.num sign waiting opened).data (inputLength + 1) (c :: rest)) =
          some ((Reading.num sign [] ((b, waiting) :: opened)).data (inputLength + 1) rest,
            .success) := by
        simp only [actOpen, opStackPush, Reading.data, calcData, Reading.ops,
          stackPush_of_lt hroom]
        rfl
      refine fsmStep_of_agrees ((congrArg _ hevent).trans (transition_num_opening b)) haction
        rfl ?_
      intro r' hr
      obtain rfl := Except.ok.inj hr
      rfl

/-- A closing bracket under the cursor. -/
theorem fsmStep_closing {r : Reading D} {b : Bracket} (hevent : charToEvent c = b.closeEvent)
    (hfits : r.Fits inputLength (c :: rest)) :
    ∃ out, fsmStep A strtod (r.data (inputLength + 1) (c :: rest)) r.state = some out ∧
      Follows (inputLength + 1) rest (r.step A (.closing b)) out := by
  cases r with
  | num sign waiting opened =>
      exact fsmStep_refused ((congrArg _ hevent).trans (transition_num_closing b))
  | op v waiting opened =>
      have hvalues := hfits.values_le
      simp only [Reading.values, List.length_cons] at hvalues
      have hrounds : waiting.length < (waitingOps waiting ++ openedOps opened).length + 1 := by
        rw [List.length_append, length_waitingOps]
        omega
      have hroom : (waitingValues waiting ++ openedValues opened).length < inputLength + 1 := by
        omega
      obtain ⟨outcome, hloop, hagrees⟩ := reduceUntilOpenLoop_calcData A (c :: rest)
        b waiting v hroom hrounds
      have hact : actClose A b.opens
          ((Reading.op v waiting opened).data (inputLength + 1) (c :: rest)) =
            (some outcome).bind fun out =>
              if out.2 ≠ .success then some out else some (out.1.advance, .success) := by
        rw [← hloop]
        rfl
      have htransition : transition A strtod .waitingForOp (charToEvent c) = _ :=
        (congrArg _ hevent).trans (transition_op_closing b)
      cases hstep : (Reading.op v waiting opened).step A (.closing b) with
      | error e =>
          rw [hstep] at hagrees
          refine fsmStep_of_agrees htransition (hact.trans ?_) hagrees (fun _ h => nomatch h)
          -- the cursor stays on the bracket
          have hne : outcome.2 ≠ .success := by
            rw [hagrees.1]
            cases e <;> decide
          rw [Option.bind_some, if_pos hne]
      | ok r =>
          rw [hstep] at hagrees
          obtain rfl := hagrees
          refine fsmStep_of_agrees htransition hact rfl ?_
          intro r' hr
          obtain rfl := Except.ok.inj hr
          cases Reading.step_advances hstep with
          | closing => rfl

/-- A number under the cursor. -/
theorem fsmStep_num (A : Arithmetic D) (strtod : Strtod D) {r : Reading D}
    (hevent : charToEvent c = .num) (hfits : r.Fits inputLength (c :: rest)) :
    ∃ out, fsmStep A strtod (r.data (inputLength + 1) (c :: rest)) r.state = some out ∧
      if strtod.length (c :: rest) = 0 then
        Follows (inputLength + 1) rest (r.step A .bad) out
      else
        Follows (inputLength + 1) ((c :: rest).drop (strtod.length (c :: rest)))
          (r.step A (.number (strtod.value (c :: rest)))) out := by
  cases r with
  | op v waiting opened =>
      have htransition : transition A strtod .waitingForOp (charToEvent c) =
          (.waitingForOp, actError) := congrArg _ hevent
      split <;> exact fsmStep_refused htransition
  | num sign waiting opened =>
      have htransition : transition A strtod .waitingForNum (charToEvent c) =
          (.waitingForOp, actPushNumber A strtod) := congrArg _ hevent
      have hvalues := hfits.values_le
      simp only [Reading.values, List.length_cons] at hvalues
      have hroom : (waitingValues waiting ++ openedValues opened).length < inputLength + 1 := by
        omega
      split
      case isTrue hzero =>
          refine fsmStep_of_agrees htransition (if_pos hzero) ⟨rfl, rfl⟩ ?_
          intro r' hr
          cases hr
      case isFalse hzero =>
          have haction : actPushNumber A strtod
              ((Reading.num sign waiting opened).data (inputLength + 1) (c :: rest)) =
              some ((Reading.op (A.opMul (strtod.value (c :: rest)) (A.ofInt sign)) waiting
                opened).data (inputLength + 1)
                ((c :: rest).drop (strtod.length (c :: rest))), .success) := by
            refine (if_neg hzero).trans ?_
            simp only [valueStackPush, Reading.data, calcData, Reading.values,
              stackPush_of_lt hroom]
            rfl
          refine fsmStep_of_agrees htransition haction rfl ?_
          intro r' hr
          obtain rfl := Except.ok.inj hr
          rfl

/-- A blank under the cursor. -/
theorem fsmStep_space {r : Reading D} {capacity : Nat} (hevent : charToEvent c = .space) :
    fsmStep A strtod (r.data capacity (c :: rest)) r.state =
      some (r.state, r.data capacity rest, .success) := by
  have hcursor : (r.data capacity (c :: rest)).cursor = c :: rest := rfl
  have hcurrent : charToEvent (currentChar (c :: rest)) = .space := hevent
  cases r <;> simp only [fsmStep, hcursor, hcurrent, Reading.state, transition] <;> rfl

/-- A byte that begins no token under the cursor. -/
theorem fsmStep_other {r : Reading D} {capacity : Nat} (hevent : charToEvent c = .other) :
    ∃ out, fsmStep A strtod (r.data capacity (c :: rest)) r.state = some out ∧
      Follows capacity rest (r.step A .bad) out := by
  cases r with
  | num sign waiting opened =>
      have htransition : transition A strtod .waitingForNum (charToEvent c) =
          (.waitingForNum, actError) := congrArg _ hevent
      exact fsmStep_refused htransition
  | op v waiting opened =>
      have htransition : transition A strtod .waitingForOp (charToEvent c) =
          (.waitingForOp, actError) := congrArg _ hevent
      exact fsmStep_refused htransition

/-- The terminator under the cursor ends the calculation as the token machine does. -/
theorem fsmStep_end (A : Arithmetic D) (strtod : Strtod D) {r : Reading D} {cursor : List UInt8}
    (hevent : charToEvent (currentChar cursor) = .end_) (hfits : r.Fits inputLength cursor) :
    ∃ out, fsmStep A strtod (r.data (inputLength + 1) cursor) r.state = some out ∧
      (out.2.2, out.2.1.out) = verdict (r.finish A) ∧
      (out.2.2 = .success → out.2.1.finish = true) := by
  have hcursor : (r.data (inputLength + 1) cursor).cursor = cursor := rfl
  cases r with
  | num sign waiting opened =>
      -- an operand is missing
      refine ⟨(.waitingForNum, (Reading.num sign waiting opened).data (inputLength + 1) cursor,
        .syntaxError), ?_, rfl, fun h => CalculatorStatus.noConfusion h⟩
      simp only [fsmStep, hcursor, hevent, Reading.state, transition]
      rfl
  | op v waiting opened =>
      obtain ⟨hvalues, hops⟩ := hfits
      simp only [Reading.values, Reading.ops, List.length_cons] at hvalues hops
      have hroomValues : (waitingValues waiting ++ openedValues opened).length <
          inputLength + 1 := by
        omega
      have hroomOps : (waitingOps waiting ++ openedOps opened).length < inputLength + 1 := by
        omega
      obtain ⟨outcome, hreduce, hout⟩ := reduceOperators_zero A cursor v waiting opened
        hroomValues hroomOps
      have hstep : fsmStep A strtod
          ((Reading.op v waiting opened).data (inputLength + 1) cursor) .waitingForOp =
          (actEnd A ((Reading.op v waiting opened).data (inputLength + 1) cursor)).bind
            fun out => some (.waitingForOp, out.1, out.2) := by
        simp only [fsmStep, hcursor, hevent, transition]
        rfl
      have hact : actEnd A ((Reading.op v waiting opened).data (inputLength + 1) cursor) =
          if outcome.2 ≠ .success then some outcome
          else if stackSize outcome.1.valuesStack ≠ 1 ∨
              stackIsEmpty outcome.1.opsStack = false then some (outcome.1, .syntaxError)
          else (stackPeek outcome.1.valuesStack).bind fun topVal =>
            some ({ outcome.1 with out := some topVal, finish := true }, .success) := by
        rw [actEnd, hreduce]
        rfl
      rw [Reading.state, hstep, hact, Reading.finish]
      cases hres : collapse (apply A) v waiting with
      | none =>
          rw [hres] at hout
          obtain ⟨hstatus, hwritten⟩ := hout
          have hne : outcome.2 ≠ .success := by
            rw [hstatus]
            decide
          rw [if_pos hne]
          refine ⟨_, rfl, Prod.ext hstatus hwritten, fun h => absurd h hne⟩
      | some v' =>
          rw [hres] at hout
          obtain rfl := hout
          cases opened with
          | nil => exact ⟨_, rfl, rfl, fun _ => rfl⟩
          | cons entry rest => exact ⟨_, rfl, rfl, fun h => CalculatorStatus.noConfusion h⟩

end Actions

/-! ## The loop -/

section Loop

variable {A : Arithmetic D} {strtod : Strtod D} {inputLength : Nat}

theorem length_waitingValues (waiting : Pending Op D) :
    (waitingValues waiting).length = waiting.length := List.length_map _

/-- The number of values on the stack. -/
theorem length_values (r : Reading D) :
    r.values.length = match r with
      | .num _ waiting opened => waiting.length + (openedValues opened).length
      | .op _ waiting opened => waiting.length + (openedValues opened).length + 1 := by
  cases r <;> simp only [Reading.values, List.length_cons, List.length_append,
    length_waitingValues]

/-- The number of operators and brackets on the stack. -/
theorem length_ops (r : Reading D) :
    r.ops.length = match r with
      | .num _ waiting opened => waiting.length + (openedOps opened).length
      | .op _ waiting opened => waiting.length + (openedOps opened).length := by
  cases r <;> simp only [Reading.ops, List.length_append, length_waitingOps]

/-- A token lays at most one entry on each stack. -/
theorem step_length {r r' : Reading D} {t : Token D} (h : r.Advances A t r') :
    r'.values.length ≤ r.values.length + 1 ∧ r'.ops.length ≤ r.ops.length + 1 := by
  cases h with
  | sign sign waiting opened s =>
      simp only [length_values, length_ops]
      omega
  | opening sign waiting opened b =>
      simp only [length_values, length_ops, openedValues, openedOps, List.flatMap_cons,
        List.length_append, List.length_cons, List.length_nil, length_waitingValues,
        length_waitingOps]
      omega
  | number sign waiting opened v =>
      simp only [length_values, length_ops]
      omega
  | op opened hreduce =>
      have hsuffix := (reduceWhile_suffix (apply A) hreduce).length_le
      simp only [length_values, length_ops, List.length_cons]
      omega
  | closing b waiting' opened hcollapse =>
      simp only [length_values, length_ops, openedValues, openedOps, List.flatMap_cons,
        List.length_append, List.length_cons, length_waitingValues, length_waitingOps]
      omega

/-- Behind a token that took bytes the stacks have room for the rest. -/
theorem Reading.Fits.step {r r' : Reading D} {t : Token D} {cursor cursor' : List UInt8}
    (h : r.Fits inputLength cursor) (hstep : r.step A t = .ok r')
    (hless : cursor'.length < cursor.length) : r'.Fits inputLength cursor' := by
  obtain ⟨hvalues, hops⟩ := step_length (Reading.step_advances hstep)
  have h1 := h.values_le
  have h2 := h.ops_le
  constructor <;> omega

/-- A round of the loop. -/
theorem calculateLoop_succ {r : Reading D} {capacity rounds : Nat} {cursor : List UInt8}
    {out : State × CalcData D × CalculatorStatus}
    (hstep : fsmStep A strtod (r.data capacity cursor) r.state = some out) :
    calculateLoop A strtod (rounds + 1) (r.data capacity cursor) r.state =
      calculateLoop A strtod rounds { out.2.1 with status := out.2.2 } out.1 := by
  have hgoes : (r.data capacity cursor).finish = false ∧
      (r.data capacity cursor).status = .success := ⟨rfl, rfl⟩
  rw [calculateLoop, if_pos hgoes, hstep]
  rfl

/-- The loop ends with an error. -/
theorem calculateLoop_error {ctx : CalcData D} {rounds : Nat} {state : State}
    (hstatus : ctx.status ≠ .success) :
    calculateLoop A strtod (rounds + 1) ctx state = some ctx := by
  rw [calculateLoop, if_neg (fun h => hstatus h.2)]

/-- The loop ends with a value. -/
theorem calculateLoop_finish {ctx : CalcData D} {rounds : Nat} {state : State}
    (hfinish : ctx.finish = true) :
    calculateLoop A strtod (rounds + 1) ctx state = some ctx := by
  rw [calculateLoop, if_neg (fun h => Bool.false_ne_true (h.1.symm.trans hfinish))]

theorem Refusal.status_ne_success (e : Refusal) : e.status ≠ .success := by
  cases e <;> decide

/-- The loop goes on as the token machine does, given that it does so from the next point. -/
theorem calculateLoop_of_follows {r : Reading D} {capacity rounds : Nat}
    {cursor cursor' : List UInt8} {result : Except Refusal (Reading D)} {ts : List (Token D)}
    (hstep : ∃ out, fsmStep A strtod (r.data capacity cursor) r.state = some out ∧
      Follows capacity cursor' result out)
    (hnext : ∀ r', result = .ok r' →
      ∃ ctx, calculateLoop A strtod (rounds + 1) (r'.data capacity cursor') r'.state = some ctx ∧
        (ctx.status, ctx.out) = verdict (r'.evaluate A ts)) :
    ∃ ctx, calculateLoop A strtod (rounds + 2) (r.data capacity cursor) r.state = some ctx ∧
      (ctx.status, ctx.out) = verdict (result.bind fun r' => r'.evaluate A ts) := by
  obtain ⟨out, hout, hfollows⟩ := hstep
  rw [calculateLoop_succ hout]
  cases result with
  | error e =>
      obtain ⟨hstatus, hwritten⟩ := hfollows
      refine ⟨_, calculateLoop_error ?_, Prod.ext hstatus hwritten⟩
      rw [hstatus]
      exact e.status_ne_success
  | ok r' =>
      obtain rfl := hfollows
      exact hnext r' rfl

/-- From any point the loop ends with the verdict of the token machine on what is unread. -/
theorem calculateLoop_data (A : Arithmetic D) (strtod : Strtod D) {rounds : Nat}
    {r : Reading D} {cursor : List UInt8} (hrounds : cursor.length + 2 ≤ rounds)
    (hfits : r.Fits inputLength cursor) :
    ∃ ctx, calculateLoop A strtod rounds (r.data (inputLength + 1) cursor) r.state = some ctx ∧
      (ctx.status, ctx.out) = verdict (r.evaluate A (tokens strtod cursor)) := by
  induction rounds generalizing r cursor with
  | zero => omega
  | succ rounds ih =>
      obtain ⟨k, rfl⟩ : ∃ k, rounds = k + 1 := ⟨rounds - 1, by omega⟩
      -- what the loop does when the terminator stands under the cursor
      have hends (hevent : charToEvent (currentChar cursor) = .end_) :
          ∃ ctx, calculateLoop A strtod (k + 2) (r.data (inputLength + 1) cursor) r.state =
            some ctx ∧ (ctx.status, ctx.out) = verdict (r.evaluate A []) := by
        obtain ⟨out, hout, hverdict, hfinish⟩ := fsmStep_end A strtod hevent hfits
        rw [calculateLoop_succ hout]
        by_cases hstatus : out.2.2 = .success
        · exact ⟨_, calculateLoop_finish (hfinish hstatus), hverdict⟩
        · exact ⟨_, calculateLoop_error hstatus, hverdict⟩
      cases cursor with
      | nil =>
          rw [tokens_nil]
          exact hends (by decide)
      | cons c rest =>
          -- the loop goes on from any point with fewer bytes to read
          have hnext (t : Token D) (cursor' : List UInt8)
              (hless : cursor'.length < (c :: rest).length) (r' : Reading D)
              (hstep : r.step A t = .ok r') :
              ∃ ctx, calculateLoop A strtod (k + 1) (r'.data (inputLength + 1) cursor')
                r'.state = some ctx ∧
                (ctx.status, ctx.out) = verdict (r'.evaluate A (tokens strtod cursor')) :=
            ih (by simp only [List.length_cons] at hless hrounds; omega) (hfits.step hstep hless)
          have hrest : rest.length < (c :: rest).length := Nat.lt_succ_self _
          rcases event_cases (charToEvent c) with
            hevent | hevent | hevent | hevent | ⟨o, hevent⟩ | ⟨b, hevent⟩ | ⟨b, hevent⟩
          · rw [tokens_end hevent]
            exact hends hevent
          · have hroundsRest : rest.length + 2 ≤ k + 1 := by
              simp only [List.length_cons] at hrounds
              omega
            have hfitsRest : r.Fits inputLength rest :=
              ⟨Nat.le_trans (Nat.add_le_add_left (Nat.le_of_lt hrest) _) hfits.values_le,
                Nat.le_trans (Nat.add_le_add_left (Nat.le_of_lt hrest) _) hfits.ops_le⟩
            rw [calculateLoop_succ (fsmStep_space hevent), tokens_space hevent]
            exact ih hroundsRest hfitsRest
          · rw [tokens_num hevent]
            obtain ⟨out, hout, hfollows⟩ := fsmStep_num A strtod hevent hfits
            by_cases hzero : strtod.length (c :: rest) = 0
            · rw [if_pos hzero] at hfollows ⊢
              rw [Reading.evaluate_cons]
              refine calculateLoop_of_follows ⟨out, hout, hfollows⟩ fun r' hr => ?_
              cases r <;> cases hr
            · rw [if_neg hzero] at hfollows ⊢
              rw [Reading.evaluate_cons]
              refine calculateLoop_of_follows ⟨out, hout, hfollows⟩ (hnext _ _ ?_)
              rw [List.length_drop]
              omega
          · rw [tokens_other hevent, Reading.evaluate_cons]
            refine calculateLoop_of_follows (fsmStep_other hevent) fun r' hr => ?_
            cases r <;> cases hr
          · rw [tokens_op hevent, Reading.evaluate_cons]
            exact calculateLoop_of_follows (fsmStep_op hevent hfits) (hnext _ _ hrest)
          · rw [tokens_opening hevent, Reading.evaluate_cons]
            exact calculateLoop_of_follows (fsmStep_opening hevent hfits) (hnext _ _ hrest)
          · rw [tokens_closing hevent, Reading.evaluate_cons]
            exact calculateLoop_of_follows (fsmStep_closing hevent hfits) (hnext _ _ hrest)

end Loop

/-! ## The calculator -/

section Calculate

variable {A : Arithmetic D} {strtod : Strtod D}

/-- With its stacks allocated, `Calculate` gives the verdict of the token machine. -/
theorem calculate_eq {expression : CString} {rounds : Nat}
    (hrounds : strlen expression + 2 ≤ rounds) :
    calculate A strtod ⟨true, true⟩ expression rounds =
      some (verdict (evaluateTokens A (tokens strtod expression.bytes))) := by
  have hfits : (Reading.start : Reading D).Fits (strlen expression) expression.bytes :=
    ⟨Nat.le_of_eq (Nat.zero_add _), Nat.le_of_eq (Nat.zero_add _)⟩
  obtain ⟨ctx, hloop, hverdict⟩ := calculateLoop_data A strtod hrounds hfits
  have heq : calculate A strtod ⟨true, true⟩ expression rounds =
      (some ctx).bind fun ctx => some (ctx.status, ctx.out) := by
    rw [← hloop]
    rfl
  rw [heq, Option.bind_some, hverdict]
  rfl

/-- Without one of its stacks, it reports so. -/
theorem calculate_allocError {allocated : Allocations} {expression : CString} {rounds : Nat}
    (hfails : allocated ≠ ⟨true, true⟩) :
    calculate A strtod allocated expression rounds = some (.allocError, none) := by
  obtain ⟨values, ops⟩ := allocated
  cases values with
  | false => rfl
  | true =>
      cases ops with
      | false => rfl
      | true => exact absurd rfl hfails

/-- A verdict comes with a value exactly where it is a success. -/
theorem verdict_written (result : Except Refusal D) :
    (verdict result).2.isSome = true ↔ (verdict result).1 = .success := by
  cases result with
  | ok v => exact ⟨fun _ => rfl, fun _ => rfl⟩
  | error e => exact ⟨fun h => absurd h Bool.false_ne_true, fun h => absurd h e.status_ne_success⟩

/-- `Calculate` is safe on every string: within as many rounds as the string has bytes, and
two, it ends without a failed assertion of its stacks, whose capacity is the length of the
string and one; and it writes the result exactly where it returns `SUCCESS`. -/
theorem calculate_safe (allocated : Allocations) (expression : CString) (rounds : Nat)
    (hrounds : strlen expression + 2 ≤ rounds) :
    ∃ status out, calculate A strtod allocated expression rounds = some (status, out) ∧
      (out.isSome = true ↔ status = .success) := by
  by_cases hallocated : allocated = ⟨true, true⟩
  · subst hallocated
    exact ⟨_, _, calculate_eq hrounds, verdict_written _⟩
  · exact ⟨_, _, calculate_allocError hallocated, fun h => absurd h Bool.false_ne_true,
      fun h => nomatch h⟩

/-- A sum of two digits. -/
def digitSum : CString := ⟨['1', '+', '2'].map byte, by decide⟩

/-- `Calculate` on the sum, with five rounds. -/
theorem calculate_safe_digitSum :
    ∃ status out, calculate wholeArithmetic wholeStrtod ⟨true, true⟩ digitSum 5 =
        some (status, out) ∧ (out.isSome = true ↔ status = .success) :=
  calculate_safe ⟨true, true⟩ digitSum 5 (by decide)

end Calculate

end Calc
end InfinityLabs
