import InfinityLabs.Calc.Evaluation

/-!
# Signs before brackets

A sign in front of a bracket is kept in `unary_sign` until the first number inside the bracket
takes it.  The value of the bracket is negated by that only where the sign passes from that
number through all operators applied to it, which are then products and quotients.
-/

namespace InfinityLabs
namespace Calc

open Lib.Precedence

variable {D : Type}

/-! ## Arithmetic with signs -/

/-- The negation of a value, as a sign makes it. -/
def Arithmetic.neg (A : Arithmetic D) (v : D) : D := A.opMul v (A.ofInt (-1))

/-- What holds of signs in `double`: a factor of one is lost, two signs cancel, and the sign
of a product and of a quotient is the one of its left operand. -/
structure Arithmetic.Lawful (A : Arithmetic D) : Prop where
  mul_one : ∀ v, A.opMul v (A.ofInt 1) = v
  neg_neg : ∀ v, A.neg (A.neg v) = v
  neg_mul : ∀ v w, A.opMul (A.neg v) w = A.neg (A.opMul v w)
  neg_div : ∀ v w, A.opDiv (A.neg v) w = A.neg (A.opDiv v w)

/-- One or minus one. -/
def UnitSign (sign : Int) : Prop := sign = 1 ∨ sign = -1

theorem UnitSign.mul {s t : Int} (hs : UnitSign s) (ht : UnitSign t) : UnitSign (s * t) := by
  rcases hs with rfl | rfl <;> rcases ht with rfl | rfl
  · exact Or.inl rfl
  · exact Or.inr rfl
  · exact Or.inr rfl
  · exact Or.inl rfl

theorem Sign.factor_unit (s : Sign) : UnitSign s.factor := by
  cases s with
  | plus => exact Or.inl rfl
  | minus => exact Or.inr rfl

theorem signFactor_unit (signs : List Sign) : UnitSign (signFactor signs) := by
  induction signs with
  | nil => exact Or.inl rfl
  | cons s signs ih =>
      rw [signFactor_cons]
      exact s.factor_unit.mul ih

/-- A number behind the opposite sign. -/
theorem Arithmetic.Lawful.mul_ofInt_neg {A : Arithmetic D} (h : A.Lawful) {sign : Int}
    (hsign : UnitSign sign) (v : D) :
    A.opMul v (A.ofInt (-sign)) = A.neg (A.opMul v (A.ofInt sign)) := by
  rcases hsign with rfl | rfl
  · rw [h.mul_one]
    rfl
  · have hneg : A.opMul v (A.ofInt (-1)) = A.neg v := rfl
    rw [Int.neg_neg, h.mul_one, hneg, h.neg_neg]

/-- The sign of the first number passes through every operator that is applied to it. -/
def Tree.SignPasses : Tree D → Prop
  | .number _ _ => True
  | .group _ _ inner => inner.SignPasses
  | .node o l _ => (o = .mul ∨ o = .div) ∧ l.SignPasses

/-- A product or a quotient of a negated operand. -/
theorem Arithmetic.Lawful.apply_neg {A : Arithmetic D} (h : A.Lawful) {o : Op}
    (ho : o = .mul ∨ o = .div) (a b : D) :
    apply A o (A.neg a) b = (apply A o a b).map A.neg := by
  rcases ho with rfl | rfl
  · rw [apply, apply, h.neg_mul]
    rfl
  · rw [apply, apply, h.neg_div]
    split <;> rfl

/-- Where the sign passes, the value behind the opposite sign is the negated value. -/
theorem Tree.SignPasses.value_neg {A : Arithmetic D} (hlawful : A.Lawful) {t : Tree D}
    (h : t.SignPasses) {sign : Int} (hsign : UnitSign sign) :
    t.value A (-sign) = (t.value A sign).map A.neg := by
  induction t generalizing sign with
  | number signs v =>
      rw [value, value, Int.neg_mul, hlawful.mul_ofInt_neg (hsign.mul (signFactor_unit signs))]
      rfl
  | group signs b inner ih =>
      rw [value, value, Int.neg_mul]
      exact ih h (hsign.mul (signFactor_unit signs))
  | node o l r ihl ihr =>
      obtain ⟨ho, hl⟩ := h
      rw [value, value, ihl hl hsign]
      cases l.value A sign with
      | none => rfl
      | some a =>
          cases r.value A 1 with
          | none => rfl
          | some b => exact hlawful.apply_neg ho a b

/-! ## Operands in their place -/

section Place

variable {A : Arithmetic D}

/-- No operator releases what waits in front of an operand. -/
theorem guards_four (waiting : Pending Op D) : Guards opTable 4 waiting := by
  intro entry _ input hinput
  have hprec : opTable.prec input ≤ 3 := by
    cases input <;> decide
  omega

/-- The machine reads an operand. -/
theorem steps_operand {t : Tree D} {ts : List (Token D)} {k : Nat} (h : Derives k t ts)
    (hoperand : t.IsOperand) (sign : Int) (waiting : Pending Op D) (opened : Open D) :
    (Reading.num sign waiting opened).steps A ts =
      orMath ((t.value A sign).map fun v => .op v waiting opened) := by
  have harrives : Arrives A 4 waiting opened (t.value A sign)
      ((Reading.num sign waiting opened).steps A ts) :=
    steps_derives (h.operand hoperand 4) (guards_four waiting)
  rcases harrives with ⟨hresult, hvalue⟩ | ⟨v, entries, hresult, hentries, hvalue⟩
  · rw [hresult, hvalue]
    rfl
  · have hnil : entries = [] := by
      refine List.eq_nil_iff_forall_not_mem.mpr fun entry hentry => ?_
      have hprec : opTable.prec entry.2 ≤ 3 := by
        cases entry.2 <;> decide
      have hle := hentries entry hentry
      omega
    subst hnil
    rw [hresult, ← hvalue]
    rfl

/-- The signs that wait are one or minus one. -/
theorem step_sign {r r' : Reading D} {t : Token D} (h : UnitSign r.sign)
    (hstep : r.Advances A t r') : UnitSign r'.sign := by
  cases hstep with
  | sign sign waiting opened s => exact h.mul s.factor_unit
  | opening => exact h
  | number => exact Or.inl rfl
  | op => exact Or.inl rfl
  | closing => exact Or.inl rfl

theorem steps_sign {r r' : Reading D} {ts : List (Token D)} (h : UnitSign r.sign)
    (hsteps : r.steps A ts = .ok r') : UnitSign r'.sign :=
  Reading.steps_invariant (P := fun r _ => UnitSign r.sign) (fun _ _ _ _ => step_sign) [] h hsteps

/-- The place behind these tokens is at the beginning, behind an operator or behind an opening
bracket. -/
def OperandPlace (lead : List (Token D)) : Prop :=
  lead = [] ∨ ∃ front last, lead = front ++ [last] ∧
    ((∃ o, last = .op o) ∨ ∃ b, last = .opening b)

/-- Behind an operator or an opening bracket an operand is read. -/
theorem step_place {r r' : Reading D} {t : Token D}
    (ht : (∃ o, t = .op o) ∨ ∃ b, t = .opening b) (hstep : r.Advances A t r') :
    r'.state = .waitingForNum := by
  cases hstep with
  | sign => rfl
  | opening => rfl
  | op => rfl
  | number => rcases ht with ⟨o, ho⟩ | ⟨b, hb⟩ <;> contradiction
  | closing => rcases ht with ⟨o, ho⟩ | ⟨b, hb⟩ <;> contradiction

/-- At the place of an operand the machine waits for one, behind one sign or none. -/
theorem steps_place {lead : List (Token D)} (hplace : OperandPlace lead) {r : Reading D}
    (hsteps : Reading.start.steps A lead = .ok r) :
    ∃ sign waiting opened, r = .num sign waiting opened ∧ UnitSign sign := by
  have hsign : UnitSign r.sign := steps_sign (Or.inl rfl) hsteps
  have hstate : r.state = .waitingForNum := by
    rcases hplace with rfl | ⟨front, last, rfl, hlast⟩
    · obtain rfl := Except.ok.inj hsteps
      rfl
    · rw [Reading.steps_append] at hsteps
      cases hfront : Reading.start.steps A front with
      | error e =>
          rw [hfront] at hsteps
          cases hsteps
      | ok next =>
          rw [hfront] at hsteps
          have hlastStep : next.step A last = .ok r :=
            (Reading.steps_singleton next last).symm.trans hsteps
          exact step_place hlast (Reading.step_advances hlastStep)
  cases r with
  | num sign waiting opened => exact ⟨sign, waiting, opened, rfl, hsign⟩
  | op v waiting opened => cases hstate

end Place

/-! ## Strings with a sign before a bracket -/

section Strings

variable {A : Arithmetic D} {strtod : Strtod D}

/-- `strtod` stops in front of a closing bracket. -/
structure StopsAtClosing (strtod : Strtod D) : Prop where
  length_eq : ∀ c rest behind, BeginsNumber c →
    strtod.length (c :: rest ++ Bracket.paren.closes :: behind) = strtod.length (c :: rest)
  value_eq : ∀ c rest behind, BeginsNumber c →
    strtod.value (c :: rest ++ Bracket.paren.closes :: behind) = strtod.value (c :: rest)

/-- A closing bracket behind a string without a fault ends its last token. -/
theorem tokens_append_closing (hstops : StopsAtClosing strtod) (behind : List UInt8)
    {bytes : List UInt8} (hzero : 0 ∉ bytes) (hgood : .bad ∉ tokens strtod bytes) :
    tokens strtod (bytes ++ Bracket.paren.closes :: behind) =
      tokens strtod bytes ++ .closing .paren :: tokens strtod behind := by
  revert hzero hgood
  induction bytes using bytes_induction strtod.toNumberReader with
  | hnil =>
      intro _ _
      rw [tokens_nil]
      exact tokens_closing (charToEvent_closes .paren)
  | hend c rest hevent =>
      intro hzero _
      exact absurd (eq_zero_of_end hevent ▸ List.mem_cons_self) hzero
  | hspace c rest hevent ih =>
      intro hzero hgood
      rw [tokens_space hevent] at hgood ⊢
      rw [List.cons_append, tokens_space hevent]
      exact ih (fun h => hzero (List.mem_cons_of_mem _ h)) hgood
  | hnum c rest hevent ih =>
      intro hzero hgood
      have hbegins := beginsNumber_of_num hevent
      rw [tokens_num hevent] at hgood ⊢
      split at hgood
      case isTrue => exact absurd List.mem_cons_self hgood
      case isFalse hreads =>
        have hlength := hstops.length_eq c rest behind hbegins
        rw [List.cons_append] at hlength
        rw [List.cons_append, tokens_num hevent, hlength, if_neg hreads, if_neg hreads,
          ← List.cons_append, List.drop_append_of_le_length (strtod.length_le _),
          hstops.value_eq c rest behind hbegins,
          ih hreads (fun h => hzero (List.mem_of_mem_drop h))
            fun h => hgood (List.mem_cons_of_mem _ h)]
        rfl
  | hother c rest hevent =>
      intro _ hgood
      rw [tokens_other hevent] at hgood
      exact absurd List.mem_cons_self hgood
  | hop o c rest hevent ih =>
      intro hzero hgood
      rw [tokens_op hevent] at hgood ⊢
      rw [List.cons_append, tokens_op hevent, ih (fun h => hzero (List.mem_cons_of_mem _ h))
        fun h => hgood (List.mem_cons_of_mem _ h)]
      rfl
  | hopening b c rest hevent ih =>
      intro hzero hgood
      rw [tokens_opening hevent] at hgood ⊢
      rw [List.cons_append, tokens_opening hevent,
        ih (fun h => hzero (List.mem_cons_of_mem _ h))
          fun h => hgood (List.mem_cons_of_mem _ h)]
      rfl
  | hclosing b c rest hevent ih =>
      intro hzero hgood
      rw [tokens_closing hevent] at hgood ⊢
      rw [List.cons_append, tokens_closing hevent,
        ih (fun h => hzero (List.mem_cons_of_mem _ h))
          fun h => hgood (List.mem_cons_of_mem _ h)]
      rfl

/-- A sign and the string in brackets. -/
def CString.signed (s : Sign) (e : CString) : CString where
  bytes := s.op.byte :: Bracket.paren.opens :: (e.bytes ++ [Bracket.paren.closes])
  noTerminator := by
    have hbytes : ∀ s : Sign, (0 : UInt8) ≠ s.op.byte := by
      intro s
      cases s <;> decide
    have hopens : (0 : UInt8) ≠ Bracket.paren.opens := by decide
    have hcloses : (0 : UInt8) ≠ Bracket.paren.closes := by decide
    simp only [List.mem_cons, List.mem_append, List.not_mem_nil, hbytes s, hopens,
      hcloses, e.noTerminator, or_self, not_false_eq_true]

/-- The tokens of a sign and a string in brackets. -/
theorem tokens_signed (hstops : StopsAtClosing strtod) (s : Sign) {e : CString}
    (hgood : .bad ∉ tokens strtod e.bytes) :
    tokens strtod (e.signed s).bytes =
      .op s.op :: .opening .paren :: (tokens strtod e.bytes ++ [.closing .paren]) := by
  rw [CString.signed, tokens_op (charToEvent_op s.op), tokens_opening (charToEvent_opens .paren),
    tokens_append_closing hstops [] e.noTerminator hgood, tokens_nil]

/-- `Calculate` reports the result, with any number of rounds that is enough. -/
def Gives (A : Arithmetic D) (strtod : Strtod D) (expression : CString)
    (result : Except Refusal D) : Prop :=
  ∀ rounds, strlen expression + 2 ≤ rounds →
    calculate A strtod ⟨true, true⟩ expression rounds = some (verdict result)

theorem verdict_injective {first second : Except Refusal D} (h : verdict first = verdict second) :
    first = second := by
  cases first with
  | ok v =>
      cases second with
      | ok w => rw [Option.some.inj (Prod.mk.inj h).2]
      | error e => exact nomatch (Prod.mk.inj h).2
  | error e =>
      cases second with
      | ok w => exact nomatch (Prod.mk.inj h).2
      | error e' =>
          have hstatus := (Prod.mk.inj h).1
          cases e <;> cases e' <;> first | rfl | cases hstatus

theorem gives_iff {expression : CString} {result : Except Refusal D} :
    Gives A strtod expression result ↔
      evaluateTokens A (tokens strtod expression.bytes) = result := by
  constructor
  · intro h
    have hresult := (calculate_eq (Nat.le_refl _)).symm.trans (h _ (Nat.le_refl _))
    exact verdict_injective (Option.some.inj hresult)
  · intro h rounds hrounds
    rw [calculate_eq hrounds, h]

/-- A sign before the bracketed expression applies to its value: alone, and where the negated
bracket stands as an operand, which then has the value of a number in its place. -/
def SignApplies (A : Arithmetic D) (strtod : Strtod D) (e : CString) : Prop :=
  ∀ v, Gives A strtod e (.ok v) →
    Gives A strtod (e.signed .minus) (.ok (A.neg v)) ∧
    Gives A strtod (e.signed .plus) (.ok v) ∧
    ∀ (expression : CString) (lead behind : List (Token D)), OperandPlace lead →
      tokens strtod expression.bytes =
        lead ++ (.op .sub :: .opening .paren :: (tokens strtod e.bytes ++ [.closing .paren])) ++
          behind →
      Gives A strtod expression (evaluateTokens A (lead ++ [.number (A.neg v)] ++ behind))

/-- An expression with a value has a tree with it. -/
theorem exists_tree_of_gives {e : CString} {v : D} (h : Gives A strtod e (.ok v)) :
    .bad ∉ tokens strtod e.bytes ∧
      ∃ t : Tree D, Derives 1 t (tokens strtod e.bytes) ∧ t.value A 1 = some v := by
  have hvalue := gives_iff.mp h
  have hphrase := phrase_of_evaluateTokens hvalue
  obtain ⟨t, -, hderives⟩ := hphrase.exists_tree
  refine ⟨hphrase.good, t, hderives, ?_⟩
  rw [evaluateTokens_derives hderives] at hvalue
  cases hresult : t.value A 1 with
  | none =>
      rw [hresult] at hvalue
      cases hvalue
  | some w =>
      rw [hresult] at hvalue
      rw [Except.ok.inj hvalue]

/-- Where the sign passes, it applies to the bracket. -/
theorem signApplies_of_signPasses (hlawful : A.Lawful) (hstops : StopsAtClosing strtod)
    {e : CString}
    (hpasses : ∀ t : Tree D, Derives 1 t (tokens strtod e.bytes) → t.SignPasses) :
    SignApplies A strtod e := by
  intro v hv
  obtain ⟨hgood, t, hderives, hvalue⟩ := exists_tree_of_gives hv
  have hgroup (s : Sign) : Derives 1 (.group [s] .paren t)
      (.op s.op :: .opening .paren :: (tokens strtod e.bytes ++ [.closing .paren])) :=
    .group 1 [s] .paren hderives
  have hneg : t.value A (-1) = some (A.neg v) := by
    rw [(hpasses t hderives).value_neg hlawful (Or.inl rfl), hvalue]
    rfl
  refine ⟨gives_iff.mpr ?_, gives_iff.mpr ?_, fun expression lead behind hplace htokens =>
    gives_iff.mpr ?_⟩
  · rw [tokens_signed hstops .minus hgood, evaluateTokens_derives (hgroup .minus)]
    exact congrArg orMath hneg
  · rw [tokens_signed hstops .plus hgood, evaluateTokens_derives (hgroup .plus)]
    exact congrArg orMath hvalue
  · rw [htokens, List.append_assoc, List.append_assoc, evaluateTokens, evaluateTokens,
      Reading.evaluate_append, Reading.evaluate_append]
    cases hlead : Reading.start.steps A lead with
    | error err => rfl
    | ok r =>
        obtain ⟨sign, waiting, opened, rfl, hsign⟩ := steps_place hplace hlead
        -- a sign that waits in front of the bracket meets the one of the bracket
        have hbracket := steps_operand (A := A) (hgroup .minus) trivial sign waiting opened
        have hsigned : (Tree.group [.minus] .paren t).value A sign =
            some (A.opMul (A.neg v) (A.ofInt sign)) := by
          rcases hsign with rfl | rfl
          · rw [hlawful.mul_one]
            exact hneg
          · exact hvalue.trans (congrArg some (hlawful.neg_neg v).symm)
        rw [hsigned, show Sign.minus.op = Op.sub from rfl] at hbracket
        simp only [Except.bind]
        rw [Reading.evaluate_append, Reading.evaluate_append, hbracket, Reading.steps_singleton]
        rfl

end Strings

/-! ## The shape of a tree -/

section Shape

variable {E : Type} (f : D → E)

/-- A token with another number. -/
def Token.map : Token D → Token E
  | .op o => .op o
  | .opening b => .opening b
  | .closing b => .closing b
  | .number v => .number (f v)
  | .bad => .bad

/-- A tree with other numbers. -/
def Tree.map : Tree D → Tree E
  | .number signs v => .number signs (f v)
  | .group signs b inner => .group signs b inner.map
  | .node o l r => .node o l.map r.map

/-- Whether the sign passes does not depend on the numbers. -/
theorem Tree.signPasses_map (t : Tree D) : (t.map f).SignPasses ↔ t.SignPasses := by
  induction t with
  | number signs v => exact Iff.rfl
  | group signs b inner ih => exact ih
  | node o l r ihl ihr => exact and_congr_right fun _ => ihl

theorem map_signTokens (signs : List Sign) :
    (signTokens signs).map (Token.map f) = signTokens signs := by
  induction signs with
  | nil => rfl
  | cons s signs ih => exact congrArg (List.cons _) ih

variable {f}

/-- Other numbers in the tree are other numbers among its tokens. -/
theorem Derives.map {k : Nat} {t : Tree D} {ts : List (Token D)} (h : Derives k t ts) :
    Derives k (t.map f) (ts.map (Token.map f)) := by
  induction h with
  | number k signs v =>
      rw [List.map_append, map_signTokens]
      exact .number k signs (f v)
  | group k signs b hinner ih =>
      simp only [List.map_append, List.map_cons, List.map_nil, map_signTokens]
      exact .group k signs b ih
  | node hk hl hr ihl ihr =>
      rw [List.map_append, List.map_cons]
      exact .node hk ihl ihr

theorem eq_signTokens_of_map {signs : List Sign} {ts : List (Token D)}
    (h : ts.map (Token.map f) = signTokens signs) : ts = signTokens signs := by
  induction signs generalizing ts with
  | nil => exact List.map_eq_nil_iff.mp h
  | cons s signs ih =>
      obtain ⟨t, rest, rfl, ht, hrest⟩ := List.map_eq_cons_iff.mp h
      cases t <;> cases ht
      exact congrArg (List.cons _) (ih hrest)

theorem eq_op_of_map {t : Token D} {o : Op} (h : t.map f = .op o) : t = .op o := by
  cases t <;> cases h
  rfl

theorem eq_opening_of_map {t : Token D} {b : Bracket} (h : t.map f = .opening b) :
    t = .opening b := by
  cases t <;> cases h
  rfl

theorem eq_closing_of_map {t : Token D} {b : Bracket} (h : t.map f = .closing b) :
    t = .closing b := by
  cases t <;> cases h
  rfl

/-- A tree for tokens with other numbers is a tree for the tokens. -/
theorem Derives.lift {k : Nat} {t : Tree E} {us : List (Token E)} (h : Derives k t us)
    {ts : List (Token D)} (hts : ts.map (Token.map f) = us) :
    ∃ t' : Tree D, t'.map f = t ∧ Derives k t' ts := by
  induction h generalizing ts with
  | number k signs v =>
      obtain ⟨front, back, rfl, hfront, hback⟩ := List.map_eq_append_iff.mp hts
      obtain ⟨last, rfl, hlast⟩ := List.map_eq_singleton_iff.mp hback
      obtain rfl := eq_signTokens_of_map hfront
      cases last with
      | number w =>
          cases hlast
          exact ⟨.number signs w, rfl, .number k signs w⟩
      | op o => cases hlast
      | opening b => cases hlast
      | closing b => cases hlast
      | bad => cases hlast
  | group k signs b hinner ih =>
      obtain ⟨front, back, rfl, hfront, hback⟩ := List.map_eq_append_iff.mp hts
      obtain rfl := eq_signTokens_of_map hfront
      obtain ⟨body, tail, rfl, hbody, htail⟩ := List.map_eq_append_iff.mp hback
      obtain ⟨first, inner, rfl, hfirst, hinner'⟩ := List.map_eq_cons_iff.mp hbody
      obtain ⟨last, rfl, hlast⟩ := List.map_eq_singleton_iff.mp htail
      obtain rfl := eq_opening_of_map hfirst
      obtain rfl := eq_closing_of_map hlast
      obtain ⟨t', rfl, ht'⟩ := ih hinner'
      exact ⟨.group signs b t', rfl, .group k signs b ht'⟩
  | @node k o l r ls rs hk hl hr ihl ihr =>
      obtain ⟨front, back, rfl, hfront, hback⟩ := List.map_eq_append_iff.mp hts
      obtain ⟨middle, tail, rfl, hmiddle, htail⟩ := List.map_eq_cons_iff.mp hback
      obtain rfl := eq_op_of_map hmiddle
      obtain ⟨l', rfl, hl'⟩ := ihl hfront
      obtain ⟨r', rfl, hr'⟩ := ihr htail
      exact ⟨.node o l' r', rfl, .node hk hl' hr'⟩

/-- Other values of `strtod` are other numbers among the tokens. -/
theorem tokens_map (reader : NumberReader) (value : List UInt8 → D) (f : D → E)
    (bytes : List UInt8) :
    tokens ⟨reader, fun b => f (value b)⟩ bytes =
      (tokens ⟨reader, value⟩ bytes).map (Token.map f) := by
  induction bytes using bytes_induction reader with
  | hnil => rw [tokens_nil, tokens_nil, List.map_nil]
  | hend c rest hevent => rw [tokens_end hevent, tokens_end hevent, List.map_nil]
  | hspace c rest hevent ih => rw [tokens_space hevent, tokens_space hevent, ih]
  | hnum c rest hevent ih =>
      rw [tokens_num hevent, tokens_num hevent]
      split
      case isTrue => rfl
      case isFalse hreads =>
        rw [ih hreads]
        rfl
  | hother c rest hevent =>
      rw [tokens_other hevent, tokens_other hevent]
      rfl
  | hop o c rest hevent ih =>
      rw [tokens_op hevent, tokens_op hevent, ih]
      rfl
  | hopening b c rest hevent ih =>
      rw [tokens_opening hevent, tokens_opening hevent, ih]
      rfl
  | hclosing b c rest hevent ih =>
      rw [tokens_closing hevent, tokens_closing hevent, ih]
      rfl

end Shape

/-! ## Terms -/

/-- Terms with a sign at every operand, which stand for themselves. -/
inductive Term where
  | unit
  | number (text : List UInt8)
  | op (o : Op) (lnegative : Bool) (l : Term) (rnegative : Bool) (r : Term)
  deriving DecidableEq

/-- The arithmetic of signed terms, in which a sign is only moved where the laws move it. -/
def termArithmetic : Arithmetic (Bool × Term) where
  opAdd x y := (false, .op .add x.1 x.2 y.1 y.2)
  opSub x y := (false, .op .sub x.1 x.2 y.1 y.2)
  opMul x y := if y.2 = .unit then (x.1 != y.1, x.2) else (x.1, .op .mul false x.2 y.1 y.2)
  opDiv x y := (x.1, .op .div false x.2 y.1 y.2)
  opPow x y := (false, .op .pow x.1 x.2 y.1 y.2)
  ofInt n := (decide (n < 0), .unit)
  isZero _ := false
  isNegative _ := false
  isIntegral _ := true

theorem termArithmetic_neg (x : Bool × Term) : termArithmetic.neg x = (!x.1, x.2) := by
  obtain ⟨negative, term⟩ := x
  cases negative <;> rfl

theorem termArithmetic_mul (x y : Bool × Term) :
    termArithmetic.opMul x y =
      if y.2 = .unit then (x.1 != y.1, x.2) else (x.1, .op .mul false x.2 y.1 y.2) := rfl

theorem termArithmetic_div (x y : Bool × Term) :
    termArithmetic.opDiv x y = (x.1, .op .div false x.2 y.1 y.2) := rfl

theorem termArithmetic_lawful : termArithmetic.Lawful where
  mul_one x := by
    obtain ⟨negative, term⟩ := x
    cases negative <;> rfl
  neg_neg x := by
    rw [termArithmetic_neg, termArithmetic_neg, Bool.not_not]
  neg_mul x y := by
    rw [termArithmetic_neg, termArithmetic_neg, termArithmetic_mul, termArithmetic_mul]
    split
    · rw [Bool.not_bne]
    · rfl
  neg_div x y := by
    rw [termArithmetic_neg, termArithmetic_neg, termArithmetic_div, termArithmetic_div]

/-- An operation on terms is never rejected. -/
theorem apply_termArithmetic (o : Op) (x y : Bool × Term) :
    apply termArithmetic o x y = some (o.func termArithmetic x y) := by
  cases o <;> rfl

/-- Operands that differ make terms that differ. -/
theorem termArithmetic_func_ne (o : Op) {x x' : Bool × Term} (hne : x ≠ x') (y : Bool × Term) :
    o.func termArithmetic x y ≠ o.func termArithmetic x' y := by
  have hpair : ¬ (x.1 = x'.1 ∧ x.2 = x'.2) := fun h => hne (Prod.ext h.1 h.2)
  intro heq
  refine hpair ?_
  cases o with
  | mul =>
      rw [Op.func, termArithmetic_mul, termArithmetic_mul] at heq
      split at heq
      · obtain ⟨hsign, hterm⟩ := Prod.mk.inj heq
        exact ⟨Bool.bne_left_inj.mp hsign, hterm⟩
      · obtain ⟨hsign, hterm⟩ := Prod.mk.inj heq
        injection hterm with _ _ hterm
        exact ⟨hsign, hterm⟩
  | div =>
      obtain ⟨hsign, hterm⟩ := Prod.mk.inj heq
      injection hterm with _ _ hterm
      exact ⟨hsign, hterm⟩
  | add =>
      injection (Prod.mk.inj heq).2 with _ hsign hterm
      exact ⟨hsign, hterm⟩
  | sub =>
      injection (Prod.mk.inj heq).2 with _ hsign hterm
      exact ⟨hsign, hterm⟩
  | pow =>
      injection (Prod.mk.inj heq).2 with _ hsign hterm
      exact ⟨hsign, hterm⟩

/-- They do so without their signs, where the operator keeps the signs or the operands differ
without them. -/
theorem termArithmetic_func_snd_ne {o : Op} {x x' : Bool × Term} (hne : x ≠ x')
    (hterm : (o = .mul ∨ o = .div) → x.2 ≠ x'.2) (y : Bool × Term) :
    (o.func termArithmetic x y).2 ≠ (o.func termArithmetic x' y).2 := by
  have hpair : ¬ (x.1 = x'.1 ∧ x.2 = x'.2) := fun h => hne (Prod.ext h.1 h.2)
  intro heq
  cases o with
  | mul =>
      rw [Op.func, termArithmetic_mul, termArithmetic_mul] at heq
      refine hterm (Or.inl rfl) ?_
      split at heq
      · exact heq
      · injection heq
  | div =>
      refine hterm (Or.inr rfl) ?_
      injection heq
  | add =>
      refine hpair ?_
      injection heq with _ hsign hterm
      exact ⟨hsign, hterm⟩
  | sub =>
      refine hpair ?_
      injection heq with _ hsign hterm
      exact ⟨hsign, hterm⟩
  | pow =>
      refine hpair ?_
      injection heq with _ hsign hterm
      exact ⟨hsign, hterm⟩

/-- A tree of terms has different values behind the two signs, and where the sign does not
pass they differ in more than their sign. -/
theorem value_termArithmetic (t : Tree (Bool × Term)) {sign : Int} (hsign : UnitSign sign) :
    ∃ x y, t.value termArithmetic sign = some x ∧ t.value termArithmetic (-sign) = some y ∧
      x ≠ y ∧ (¬ t.SignPasses → x.2 ≠ y.2) := by
  induction t generalizing sign with
  | number signs v =>
      refine ⟨_, _, rfl, rfl, ?_, fun h => absurd trivial h⟩
      rw [Int.neg_mul, termArithmetic_lawful.mul_ofInt_neg (hsign.mul (signFactor_unit signs)),
        termArithmetic_neg]
      exact fun heq => (Bool.eq_not_self _).mp (Prod.mk.inj heq).1
  | group signs b inner ih =>
      rw [Tree.value, Tree.value, Int.neg_mul]
      exact ih (hsign.mul (signFactor_unit signs))
  | node o l r ihl ihr =>
      obtain ⟨x, y, hx, hy, hne, hterm⟩ := ihl hsign
      obtain ⟨z, -, hz, -⟩ := ihr (Or.inl rfl)
      refine ⟨o.func termArithmetic x z, o.func termArithmetic y z, ?_, ?_,
        termArithmetic_func_ne o hne z, fun hpasses => ?_⟩
      · rw [Tree.value, hx, hz]
        exact apply_termArithmetic o x z
      · rw [Tree.value, hy, hz]
        exact apply_termArithmetic o y z
      · exact termArithmetic_func_snd_ne hne (fun ho => hterm fun h => hpasses ⟨ho, h⟩) z

/-! ## When a sign applies to a bracket -/

/-- A sign before a bracket applies to it, in every arithmetic with the laws of signs, exactly
where on the tree of the bracketed expression all operators that have the first number in
their left operand, through brackets as well, are products and quotients. -/
theorem signApplies_iff (reader : NumberReader)
    (hlength : ∀ c rest behind, BeginsNumber c →
      reader.length (c :: rest ++ Bracket.paren.closes :: behind) = reader.length (c :: rest))
    (e : CString) :
    (∀ (D : Type) (A : Arithmetic D) (value : List UInt8 → D), A.Lawful →
      StopsAtClosing ⟨reader, value⟩ → SignApplies A ⟨reader, value⟩ e) ↔
    ∀ t : Tree Unit, Derives 1 t (tokens ⟨reader, fun _ => ()⟩ e.bytes) → t.SignPasses := by
  constructor
  · intro happlies t hderives
    -- terms stand for themselves, so equal values have equal terms
    let value : List UInt8 → Bool × Term := fun bytes =>
      (false, .number (bytes.take (reader.length bytes)))
    have hstops : StopsAtClosing ⟨reader, value⟩ := by
      refine ⟨hlength, fun c rest behind hbegins => ?_⟩
      simp only [value, hlength c rest behind hbegins]
      rw [List.take_append_of_le_length (reader.length_le _)]
    have hunit : tokens ⟨reader, fun _ => ()⟩ e.bytes =
        (tokens ⟨reader, value⟩ e.bytes).map (Token.map fun _ => ()) :=
      tokens_map reader value (fun _ => ()) e.bytes
    obtain ⟨t', rfl, hderives'⟩ := hderives.lift hunit.symm
    rw [Tree.signPasses_map]
    obtain ⟨x, y, hx, hy, -, hterm⟩ := value_termArithmetic t' (Or.inl rfl)
    have hgives : Gives termArithmetic ⟨reader, value⟩ e (.ok x) := by
      rw [gives_iff, evaluateTokens_derives hderives', hx]
      rfl
    have hgood := (exists_tree_of_gives hgives).1
    obtain ⟨hminus, -, -⟩ := happlies _ termArithmetic value termArithmetic_lawful hstops x hgives
    have hgroup : Derives 1 (.group [.minus] .paren t')
        (.op Sign.minus.op :: .opening .paren ::
          (tokens ⟨reader, value⟩ e.bytes ++ [.closing .paren])) :=
      .group 1 [.minus] .paren hderives'
    rw [gives_iff, tokens_signed hstops .minus hgood, evaluateTokens_derives hgroup] at hminus
    have hvalue : (Tree.group [.minus] .paren t').value termArithmetic 1 = some y := hy
    rw [hvalue, termArithmetic_neg] at hminus
    by_contra hpasses
    exact hterm hpasses (congrArg Prod.snd (Except.ok.inj hminus)).symm
  · intro hpasses D A value hlawful hstops
    refine signApplies_of_signPasses hlawful hstops fun t hderives => ?_
    have hshape := hpasses (t.map fun _ => ()) ?_
    · exact (Tree.signPasses_map _ t).mp hshape
    · rw [tokens_map reader value (fun _ => ())]
      exact hderives.map

theorem wholeArithmetic_lawful : wholeArithmetic.Lawful where
  mul_one := Int.mul_one
  neg_neg v := by
    show v * -1 * -1 = v
    omega
  neg_mul v w := by
    show v * -1 * w = v * w * -1
    rw [Int.mul_assoc, Int.mul_assoc, Int.mul_comm w]
  neg_div v w := by
    show (v * -1).tdiv w = v.tdiv w * -1
    rw [Int.mul_neg_one, Int.mul_neg_one, Int.neg_tdiv]

/-- Reading digits stops in front of a closing bracket. -/
theorem wholeStrtod_stopsAtClosing : StopsAtClosing wholeStrtod := by
  have htake (bytes behind : List UInt8) :
      (bytes ++ Bracket.paren.closes :: behind).takeWhile isDigit = bytes.takeWhile isDigit := by
    have hdigit : isDigit Bracket.paren.closes = false := by decide
    induction bytes with
    | nil => rw [List.nil_append, List.takeWhile_cons, hdigit]; rfl
    | cons c rest ih => rw [List.cons_append, List.takeWhile_cons, List.takeWhile_cons, ih]
  constructor
  · intro c rest behind _
    simp only [wholeStrtod, htake]
  · intro c rest behind _
    simp only [wholeStrtod, htake]

/-- The string `2*3`. -/
def digitProduct : CString := ⟨['2', '*', '3'].map byte, by decide⟩

/-- When a sign applies to `(2*3)`. -/
theorem signApplies_iff_digitProduct :
    (∀ (D : Type) (A : Arithmetic D) (value : List UInt8 → D), A.Lawful →
      StopsAtClosing ⟨wholeStrtod.toNumberReader, value⟩ →
        SignApplies A ⟨wholeStrtod.toNumberReader, value⟩ digitProduct) ↔
    ∀ t : Tree Unit,
      Derives 1 t (tokens ⟨wholeStrtod.toNumberReader, fun _ => ()⟩ digitProduct.bytes) →
        t.SignPasses :=
  signApplies_iff wholeStrtod.toNumberReader wholeStrtod_stopsAtClosing.length_eq digitProduct

/-- The string `2+3`. -/
def digitTotal : CString := ⟨['2', '+', '3'].map byte, by decide⟩

/-- The value of `2+3` is five, and the value of `-(2+3)` is one. -/
theorem signApplies_not_digitTotal :
    wholeArithmetic.Lawful ∧ StopsAtClosing wholeStrtod ∧
      Gives wholeArithmetic wholeStrtod digitTotal (.ok 5) ∧
      Gives wholeArithmetic wholeStrtod (digitTotal.signed .minus) (.ok 1) ∧
      ¬ SignApplies wholeArithmetic wholeStrtod digitTotal := by
  have hvalue (e : CString) (v : Int)
      (h : calculate wholeArithmetic wholeStrtod ⟨true, true⟩ e (strlen e + 2) =
        some (.success, some v)) : Gives wholeArithmetic wholeStrtod e (.ok v) := by
    rw [calculate_eq (Nat.le_refl _)] at h
    exact gives_iff.mpr (verdict_injective (Option.some.inj h))
  have htotal : Gives wholeArithmetic wholeStrtod digitTotal (.ok 5) :=
    hvalue digitTotal 5 (by decide +kernel)
  have hsigned : Gives wholeArithmetic wholeStrtod (digitTotal.signed .minus) (.ok 1) :=
    hvalue (digitTotal.signed .minus) 1 (by decide +kernel)
  refine ⟨wholeArithmetic_lawful, wholeStrtod_stopsAtClosing, htotal, hsigned, fun happlies => ?_⟩
  have hminus := (happlies 5 htotal).1
  rw [gives_iff] at hminus hsigned
  have heq : (1 : Int) = wholeArithmetic.neg 5 := Except.ok.inj (hsigned.symm.trans hminus)
  exact absurd heq (by decide)

end Calc
end InfinityLabs
