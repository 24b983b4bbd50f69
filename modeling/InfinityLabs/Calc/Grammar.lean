import InfinityLabs.Calc.Refinement

/-!
# The grammar of the calculator

An expression is a sequence of operands with single operators between them; an operand is a
number or a bracketed expression behind any number of signs.  The tokens that the calculator
has read at some point are always the beginning of an expression: brackets that are still
open, in front of each of them what it interrupts, and behind them a part that ends with an
operator, with signs or with an operand.
-/

namespace InfinityLabs
namespace Calc

open Lib.Precedence

variable {D : Type}

/-! ## Texts and phrases -/

/-- The bytes that may stand between tokens. -/
def blanks : List UInt8 := [byte ' ', byte '\t', byte '\n', byte '\r', 11, 12]

/-- The bytes with which a number begins. -/
def BeginsNumber (c : UInt8) : Prop := isDigit c = true ∨ c = byte '.'

/-- The bytes are a text of the tokens, whose numbers are those that `strtod` reads. -/
inductive Reads (strtod : Strtod D) : List UInt8 → List (Token D) → Prop
  | nil : Reads strtod [] []
  | blank {c : UInt8} {rest : List UInt8} {ts : List (Token D)} (hblank : c ∈ blanks)
      (hrest : Reads strtod rest ts) : Reads strtod (c :: rest) ts
  | op (o : Op) {rest : List UInt8} {ts : List (Token D)} (hrest : Reads strtod rest ts) :
      Reads strtod (o.byte :: rest) (.op o :: ts)
  | opening (b : Bracket) {rest : List UInt8} {ts : List (Token D)}
      (hrest : Reads strtod rest ts) : Reads strtod (b.opens :: rest) (.opening b :: ts)
  | closing (b : Bracket) {rest : List UInt8} {ts : List (Token D)}
      (hrest : Reads strtod rest ts) : Reads strtod (b.closes :: rest) (.closing b :: ts)
  | number {c : UInt8} {rest : List UInt8} {ts : List (Token D)} (hbegins : BeginsNumber c)
      (hreads : strtod.length (c :: rest) ≠ 0)
      (hrest : Reads strtod ((c :: rest).drop (strtod.length (c :: rest))) ts) :
      Reads strtod (c :: rest) (.number (strtod.value (c :: rest)) :: ts)

/-- What a list of tokens may be a phrase of. -/
inductive PhraseKind where
  | operand
  | expression

/-- The grammar. -/
inductive Phrase : PhraseKind → List (Token D) → Prop
  | number (v : D) : Phrase .operand [.number v]
  | group (b : Bracket) {ts : List (Token D)} (hinner : Phrase .expression ts) :
      Phrase .operand (.opening b :: ts ++ [.closing b])
  | signed (s : Sign) {ts : List (Token D)} (hoperand : Phrase .operand ts) :
      Phrase .operand (.op s.op :: ts)
  | single {ts : List (Token D)} (hoperand : Phrase .operand ts) : Phrase .expression ts
  | binary (o : Op) {ts us : List (Token D)} (hleft : Phrase .expression ts)
      (hoperand : Phrase .operand us) : Phrase .expression (ts ++ .op o :: us)

/-! ## Beginnings of expressions -/

/-- What may stand in front of an operand: nothing, or an expression and an operator. -/
inductive Lead : List (Token D) → Prop
  | nil : Lead []
  | op {ts : List (Token D)} (o : Op) (hleft : Phrase .expression ts) : Lead (ts ++ [.op o])

/-- A list of signs. -/
def signTokens (signs : List Sign) : List (Token D) := signs.map fun s => .op s.op

/-- Brackets that are open, the last one first, with what each of them interrupts. -/
inductive Opens : List Bracket → List (Token D) → Prop
  | nil : Opens [] []
  | cons (b : Bracket) {bs : List Bracket} {outer lead : List (Token D)} (signs : List Sign)
      (houter : Opens bs outer) (hlead : Lead lead) :
      Opens (b :: bs) (outer ++ lead ++ signTokens signs ++ [.opening b])

/-- The tokens read so far are the beginning of an expression up to the point reached. -/
def Placed : Reading D → List (Token D) → Prop
  | .num _ _ opened, ts =>
      ∃ outer lead signs, Opens (opened.map Prod.fst) outer ∧ Lead lead ∧
        ts = outer ++ lead ++ signTokens signs
  | .op _ _ opened, ts =>
      ∃ outer inner, Opens (opened.map Prod.fst) outer ∧ Phrase .expression inner ∧
        ts = outer ++ inner

/-- Signs in front of an operand make an operand. -/
theorem Phrase.signs {ts : List (Token D)} (h : Phrase .operand ts) (signs : List Sign) :
    Phrase .operand (signTokens signs ++ ts) := by
  induction signs with
  | nil => exact h
  | cons s signs ih => exact .signed s ih

/-- An operand behind its lead makes an expression. -/
theorem Lead.operand {lead ts : List (Token D)} (hlead : Lead lead) (h : Phrase .operand ts) :
    Phrase .expression (lead ++ ts) := by
  cases hlead with
  | nil => exact .single h
  | op o hleft =>
      rw [List.append_assoc]
      exact .binary o hleft h

/-- A token that is not refused goes on with the expression. -/
theorem placed_step {A : Arithmetic D} {r r' : Reading D} {t : Token D} {ts : List (Token D)}
    (h : Placed r ts) (hstep : r.Advances A t r') : Placed r' (ts ++ [t]) := by
  cases hstep with
  | sign sign waiting opened s =>
      obtain ⟨outer, lead, signs, houter, hlead, rfl⟩ := h
      refine ⟨outer, lead, signs ++ [s], houter, hlead, ?_⟩
      simp only [signTokens, List.map_append, List.append_assoc, List.map_cons, List.map_nil]
  | opening sign waiting opened b =>
      obtain ⟨outer, lead, signs, houter, hlead, rfl⟩ := h
      refine ⟨_, [], [], .cons b signs houter hlead, .nil, ?_⟩
      simp only [signTokens, List.map_nil, List.append_nil]
  | number sign waiting opened v =>
      obtain ⟨outer, lead, signs, houter, hlead, rfl⟩ := h
      refine ⟨outer, lead ++ (signTokens signs ++ [.number v]), houter, ?_, ?_⟩
      · exact hlead.operand ((Phrase.number v).signs signs)
      · simp only [List.append_assoc]
  | @op _ _ _ _ o opened hreduce =>
      obtain ⟨outer, inner, houter, hinner, rfl⟩ := h
      refine ⟨outer, inner ++ [.op o], [], houter, .op o hinner, ?_⟩
      simp only [signTokens, List.map_nil, List.append_nil, List.append_assoc]
  | closing b waiting' opened hcollapse =>
      obtain ⟨_, inner, houter, hinner, rfl⟩ := h
      cases houter with
      | @cons _ _ outer lead signs houter hlead =>
          -- the signs in front of the bracket belong to its operand
          refine ⟨outer, lead ++ (signTokens signs ++ (.opening b :: inner ++ [.closing b])),
            houter, ?_, ?_⟩
          · exact hlead.operand ((Phrase.group b hinner).signs signs)
          · simp only [List.append_assoc, List.cons_append, List.nil_append]

/-- Tokens that are not refused go on with the expression. -/
theorem placed_steps {A : Arithmetic D} {r r' : Reading D} {ts us : List (Token D)}
    (h : Placed r ts) (hsteps : r.steps A us = .ok r') : Placed r' (ts ++ us) :=
  Reading.steps_invariant (fun _ _ _ _ => placed_step) ts h hsteps

theorem placed_start : Placed (Reading.start : Reading D) [] :=
  ⟨[], [], [], .nil, .nil, rfl⟩

/-- Tokens with a value are an expression. -/
theorem phrase_of_evaluateTokens {A : Arithmetic D} {ts : List (Token D)} {v : D}
    (h : evaluateTokens A ts = .ok v) : Phrase .expression ts := by
  rw [evaluateTokens, Reading.evaluate] at h
  cases hsteps : Reading.start.steps A ts with
  | error e =>
      rw [hsteps] at h
      cases h
  | ok r =>
      rw [hsteps] at h
      have hplaced := placed_steps placed_start hsteps
      rw [List.nil_append] at hplaced
      cases r with
      | num sign waiting opened => cases h
      | op v' waiting opened =>
          simp only [Except.bind, Reading.finish] at h
          split at h
          · cases h
          · cases opened with
            | cons entry rest => cases h
            | nil =>
                obtain ⟨outer, inner, houter, hinner, rfl⟩ := hplaced
                cases houter
                exact hinner

/-! ## The text of the tokens -/

section Text

variable {c : UInt8}

/-- The bytes that an event stands for. -/
def eventByte (c : UInt8) : Event → Bool
  | .end_ => c == 0
  | .space => blanks.elem c
  | .num => isDigit c || c == byte '.'
  | .plus => c == byte '+'
  | .minus => c == byte '-'
  | .mul => c == byte '*'
  | .div => c == byte '/'
  | .pow => c == byte '^'
  | .lparen => c == byte '('
  | .rparen => c == byte ')'
  | .lbracket => c == byte '['
  | .rbracket => c == byte ']'
  | .lbrace => c == byte '\x7b'
  | .rbrace => c == byte '\x7d'
  | .other => true

/-- Every byte of the table is one that its event stands for. -/
theorem eventByte_charToEvent (c : UInt8) : eventByte c (charToEvent c) = true := by
  have hall : ∀ n : Fin 256,
      eventByte (UInt8.ofFin n) (charToEvent (UInt8.ofFin n)) = true := by
    decide +kernel
  exact hall c.toFin

theorem eq_zero_of_end (h : charToEvent c = .end_) : c = 0 := by
  have hbyte := eventByte_charToEvent c
  rw [h] at hbyte
  exact eq_of_beq hbyte

theorem mem_blanks_of_space (h : charToEvent c = .space) : c ∈ blanks := by
  have hbyte := eventByte_charToEvent c
  rw [h] at hbyte
  exact List.elem_iff.mp hbyte

theorem beginsNumber_of_num (h : charToEvent c = .num) : BeginsNumber c := by
  have hbyte := eventByte_charToEvent c
  rw [h] at hbyte
  exact (Bool.or_eq_true_iff.mp hbyte).imp_right eq_of_beq

theorem eq_byte_of_op {o : Op} (h : charToEvent c = o.event) : c = o.byte := by
  have hbyte := eventByte_charToEvent c
  rw [h] at hbyte
  cases o <;> exact eq_of_beq hbyte

theorem eq_opens_of_opening {b : Bracket} (h : charToEvent c = b.openEvent) : c = b.opens := by
  have hbyte := eventByte_charToEvent c
  rw [h] at hbyte
  cases b <;> exact eq_of_beq hbyte

theorem eq_closes_of_closing {b : Bracket} (h : charToEvent c = b.closeEvent) :
    c = b.closes := by
  have hbyte := eventByte_charToEvent c
  rw [h] at hbyte
  cases b <;> exact eq_of_beq hbyte

/-- A string whose tokens have no fault is a text of them. -/
theorem reads_tokens {strtod : Strtod D} {bytes : List UInt8} (hzero : 0 ∉ bytes)
    (hgood : .bad ∉ tokens strtod bytes) : Reads strtod bytes (tokens strtod bytes) := by
  revert hzero hgood
  induction bytes using bytes_induction strtod.toNumberReader with
  | hnil =>
      intro _ _
      rw [tokens_nil]
      exact .nil
  | hend c rest hevent =>
      intro hzero _
      exact absurd (eq_zero_of_end hevent ▸ List.mem_cons_self) hzero
  | hspace c rest hevent ih =>
      intro hzero hgood
      rw [tokens_space hevent] at hgood ⊢
      exact .blank (mem_blanks_of_space hevent)
        (ih (fun h => hzero (List.mem_cons_of_mem _ h)) hgood)
  | hnum c rest hevent ih =>
      intro hzero hgood
      rw [tokens_num hevent] at hgood ⊢
      split at hgood
      case isTrue => exact absurd List.mem_cons_self hgood
      case isFalse hreads =>
        rw [if_neg hreads]
        exact .number (beginsNumber_of_num hevent) hreads (ih hreads
          (fun h => hzero (List.mem_of_mem_drop h)) fun h => hgood (List.mem_cons_of_mem _ h))
  | hother c rest hevent =>
      intro _ hgood
      rw [tokens_other hevent] at hgood
      exact absurd List.mem_cons_self hgood
  | hop o c rest hevent ih =>
      intro hzero hgood
      rw [tokens_op hevent] at hgood ⊢
      rw [eq_byte_of_op hevent]
      exact .op o (ih (fun h => hzero (List.mem_cons_of_mem _ h))
        fun h => hgood (List.mem_cons_of_mem _ h))
  | hopening b c rest hevent ih =>
      intro hzero hgood
      rw [tokens_opening hevent] at hgood ⊢
      rw [eq_opens_of_opening hevent]
      exact .opening b (ih (fun h => hzero (List.mem_cons_of_mem _ h))
        fun h => hgood (List.mem_cons_of_mem _ h))
  | hclosing b c rest hevent ih =>
      intro hzero hgood
      rw [tokens_closing hevent] at hgood ⊢
      rw [eq_closes_of_closing hevent]
      exact .closing b (ih (fun h => hzero (List.mem_cons_of_mem _ h))
        fun h => hgood (List.mem_cons_of_mem _ h))

end Text

/-- A phrase has no fault. -/
theorem Phrase.good {k : PhraseKind} {ts : List (Token D)} (h : Phrase k ts) : .bad ∉ ts := by
  induction h with
  | number v => simp
  | group b hinner ih => simpa using ih
  | signed s hoperand ih => simpa using ih
  | single hoperand ih => exact ih
  | binary o hleft hoperand ihl ihr => simp [ihl, ihr]

/-! ## Rejected operations -/

section Rejected

variable {A : Arithmetic D} {ts : List (Token D)}

/-- The values that the operators and numbers among the tokens make. -/
inductive Computed (A : Arithmetic D) (ts : List (Token D)) : D → Prop
  | number {v : D} (signs : List Sign) (hnumber : .number v ∈ ts) :
      Computed A ts (A.opMul v (A.ofInt (signs.map Sign.factor).prod))
  | apply {o : Op} {l r v : D} (hop : .op o ∈ ts) (hl : Computed A ts l) (hr : Computed A ts r)
      (happly : Calc.apply A o l r = some v) : Computed A ts v

/-- An operator among the tokens is rejected on values that they make. -/
def Rejects (A : Arithmetic D) (ts : List (Token D)) : Prop :=
  ∃ o l r, .op o ∈ ts ∧ Computed A ts l ∧ Computed A ts r ∧ apply A o l r = none

/-- The entries wait with operators and values of the tokens. -/
def WaitingComputed (A : Arithmetic D) (ts : List (Token D)) (waiting : Pending Op D) : Prop :=
  ∀ entry ∈ waiting, Computed A ts entry.1 ∧ .op entry.2 ∈ ts

/-- All values of the machine are made by the tokens. -/
def AllComputed (A : Arithmetic D) (ts : List (Token D)) : Reading D → Prop
  | .num sign waiting opened =>
      (∃ signs : List Sign, sign = (signs.map Sign.factor).prod) ∧
        WaitingComputed A ts waiting ∧ ∀ entry ∈ opened, WaitingComputed A ts entry.2
  | .op v waiting opened =>
      Computed A ts v ∧ WaitingComputed A ts waiting ∧
        ∀ entry ∈ opened, WaitingComputed A ts entry.2

/-- What holds of a result: it is a state with computed values, or names the refusal. -/
def ResultComputed (A : Arithmetic D) (ts : List (Token D)) :
    Except Refusal (Reading D) → Prop
  | .ok r => AllComputed A ts r
  | .error .math => Rejects A ts
  | .error .syntax_ => True

/-- Applying waiting entries makes a value, or meets a rejected operation. -/
theorem collapse_computed {v : D} {waiting : Pending Op D} (hv : Computed A ts v)
    (hwaiting : WaitingComputed A ts waiting) :
    (∀ r, collapse (apply A) v waiting = some r → Computed A ts r) ∧
      (collapse (apply A) v waiting = none → Rejects A ts) :=
  collapse_closed (apply A) (P := Computed A ts) (Q := fun o => Token.op o ∈ ts)
    (fun _ _ _ _ ho hl hr happly => .apply ho hl hr happly) hv hwaiting

/-- The same of the entries that an operator releases. -/
theorem reduce_computed (o : Op) {v : D} {waiting : Pending Op D} (hv : Computed A ts v)
    (hwaiting : WaitingComputed A ts waiting) :
    (∀ result, reduce (apply A) opTable o v waiting = some result →
        Computed A ts result.1) ∧
      (reduce (apply A) opTable o v waiting = none → Rejects A ts) :=
  reduceWhile_closed (apply A) _ (P := Computed A ts) (Q := fun o => Token.op o ∈ ts)
    (fun _ _ _ _ ho hl hr happly => .apply ho hl hr happly) hv hwaiting

/-- A token of the list keeps the values computed. -/
theorem step_computed {r : Reading D} {t : Token D} (h : AllComputed A ts r) (ht : t ∈ ts) :
    ResultComputed A ts (r.step A t) := by
  cases r with
  | num sign waiting opened =>
      obtain ⟨⟨signs, rfl⟩, hwaiting, hopened⟩ := h
      cases t with
      | op o =>
          rw [Reading.step]
          cases o.sign? with
          | none => exact trivial
          | some s =>
              refine ⟨⟨signs ++ [s], ?_⟩, hwaiting, hopened⟩
              rw [List.map_append, List.prod_append, List.map_singleton, List.prod_singleton]
      | opening b =>
          refine ⟨⟨signs, rfl⟩, ?_, ?_⟩
          · intro entry hentry
            cases hentry
          · intro entry hentry
            rcases List.mem_cons.mp hentry with rfl | hentry
            · exact hwaiting
            · exact hopened entry hentry
      | closing b => exact trivial
      | number v => exact ⟨.number signs ht, hwaiting, hopened⟩
      | bad => exact trivial
  | op v waiting opened =>
      obtain ⟨hv, hwaiting, hopened⟩ := h
      cases t with
      | op o =>
          rw [Reading.step]
          obtain ⟨hsome, hnone⟩ := reduce_computed o hv hwaiting
          cases hreduce : reduce (apply A) opTable o v waiting with
          | none => exact hnone hreduce
          | some result =>
              obtain ⟨v', waiting'⟩ := result
              refine ⟨⟨[], rfl⟩, ?_, hopened⟩
              intro entry hentry
              rcases List.mem_cons.mp hentry with rfl | hentry
              · exact ⟨hsome _ hreduce, ht⟩
              · exact hwaiting entry ((reduceWhile_suffix (apply A) hreduce).subset hentry)
      | opening b => exact trivial
      | closing b =>
          rw [Reading.step]
          obtain ⟨hsome, hnone⟩ := collapse_computed hv hwaiting
          cases hcollapse : collapse (apply A) v waiting with
          | none => exact hnone hcollapse
          | some v' =>
              cases opened with
              | nil => exact trivial
              | cons entry rest =>
                  obtain ⟨b', waiting'⟩ := entry
                  simp only [close]
                  split
                  · exact ⟨hsome v' hcollapse, hopened _ List.mem_cons_self,
                      fun e he => hopened e (List.mem_cons_of_mem _ he)⟩
                  · exact trivial
      | number v => exact trivial
      | bad => exact trivial

/-- Tokens of the list keep the values computed. -/
theorem steps_computed {r : Reading D} {us : List (Token D)} (h : AllComputed A ts r)
    (hus : ∀ t ∈ us, t ∈ ts) : ResultComputed A ts (r.steps A us) := by
  induction us generalizing r with
  | nil => exact h
  | cons t rest ih =>
      have hstep := step_computed h (hus t List.mem_cons_self)
      rw [Reading.steps_cons]
      cases hnext : r.step A t with
      | error e =>
          rw [hnext] at hstep
          cases e <;> exact hstep
      | ok r' =>
          rw [hnext] at hstep
          exact ih hstep fun t ht => hus t (List.mem_cons_of_mem _ ht)

/-- Where a value is refused for its arithmetic, an operation was rejected. -/
theorem rejects_of_math (h : evaluateTokens A ts = .error .math) : Rejects A ts := by
  have hstart : AllComputed A ts (Reading.start : Reading D) :=
    ⟨⟨[], rfl⟩, fun _ he => (nomatch he), fun _ he => (nomatch he)⟩
  have hsteps := steps_computed hstart fun t ht => ht
  rw [evaluateTokens, Reading.evaluate] at h
  cases hresult : Reading.start.steps A ts with
  | error e =>
      rw [hresult] at hsteps h
      obtain rfl := Except.error.inj h
      exact hsteps
  | ok r =>
      rw [hresult] at hsteps h
      cases r with
      | num sign waiting opened => cases h
      | op v waiting opened =>
          simp only [Except.bind, Reading.finish] at h
          cases hcollapse : collapse (apply A) v waiting with
          | none => exact (collapse_computed hsteps.1 hsteps.2.1).2 hcollapse
          | some v' =>
              -- a bracket that is still open is no arithmetic error
              rw [hcollapse] at h
              simp only at h
              split at h <;> cases h

end Rejected

/-! ## The strings that are accepted -/

/-- The string is an expression of the grammar, up to blanks. -/
def IsExpression (strtod : Strtod D) (expression : CString) : Prop :=
  ∃ ts, Reads strtod expression.bytes ts ∧ Phrase .expression ts

/-- `Calculate` accepts only its grammar: where it returns `SUCCESS` the string is an
expression, and any other string is a syntax error, unless one of its operators is rejected
on values of its numbers. -/
theorem calculate_accepts (A : Arithmetic D) (strtod : Strtod D) (expression : CString)
    (rounds : Nat) (hrounds : strlen expression + 2 ≤ rounds) :
    (∀ out, calculate A strtod ⟨true, true⟩ expression rounds = some (.success, out) →
      IsExpression strtod expression) ∧
    (¬ IsExpression strtod expression →
      calculate A strtod ⟨true, true⟩ expression rounds = some (.syntaxError, none) ∨
        (calculate A strtod ⟨true, true⟩ expression rounds = some (.mathError, none) ∧
          Rejects A (tokens strtod expression.bytes))) := by
  have hexpression (v : D)
      (hv : evaluateTokens A (tokens strtod expression.bytes) = .ok v) :
      IsExpression strtod expression := by
    have hphrase := phrase_of_evaluateTokens hv
    exact ⟨_, reads_tokens expression.noTerminator hphrase.good, hphrase⟩
  rw [calculate_eq hrounds]
  cases hresult : evaluateTokens A (tokens strtod expression.bytes) with
  | ok v =>
      exact ⟨fun _ _ => hexpression v hresult, fun hnot => absurd (hexpression v hresult) hnot⟩
  | error e =>
      refine ⟨fun out hout => ?_, fun _ => ?_⟩
      · have hstatus := congrArg Prod.fst (Option.some.inj hout)
        exact absurd hstatus e.status_ne_success
      · cases e with
        | math => exact Or.inr ⟨rfl, rejects_of_math hresult⟩
        | syntax_ => exact Or.inl rfl

/-- `Calculate` on the sum of two digits. -/
theorem calculate_accepts_digitSum :
    (∀ out, calculate wholeArithmetic wholeStrtod ⟨true, true⟩ digitSum 7 =
        some (.success, out) → IsExpression wholeStrtod digitSum) ∧
      (¬ IsExpression wholeStrtod digitSum →
        calculate wholeArithmetic wholeStrtod ⟨true, true⟩ digitSum 7 =
            some (.syntaxError, none) ∨
          (calculate wholeArithmetic wholeStrtod ⟨true, true⟩ digitSum 7 =
              some (.mathError, none) ∧
            Rejects wholeArithmetic (tokens wholeStrtod digitSum.bytes))) :=
  calculate_accepts wholeArithmetic wholeStrtod digitSum 7 (by decide)

end Calc
end InfinityLabs
