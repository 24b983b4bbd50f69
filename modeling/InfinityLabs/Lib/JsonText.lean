import Mathlib.Tactic.Common

/-!
# The texts of the JSON grammar

A text is a list of UTF-16 code units.  `JsonText` derives the texts of the grammar
part by part: values with the white space around them, the elements of arrays, and the
members of objects.  A string may hold any unit from the space on, and escapes for the
quote, the backslash and everything below.

A scanner that looks at quotes and braces alone needs the rule `JsonText.rec_nesting`:
outside of strings, braces occur in matching pairs only.
-/

namespace InfinityLabs
namespace Lib

/-- A text: its UTF-16 code units. -/
abbrev Units := List UInt16

/-! ## Tokens -/

/-- Space, tab, line feed and carriage return. -/
def isJsonSpace (c : UInt16) : Bool :=
  c == 0x20 || c == 0x09 || c == 0x0a || c == 0x0d

/-- `0` to `9`. -/
def isDecimal (c : UInt16) : Bool :=
  0x30 ≤ c && c ≤ 0x39

/-- `0` to `9`, `a` to `f` and `A` to `F`. -/
def isHexadecimal (c : UInt16) : Bool :=
  isDecimal c || (0x61 ≤ c && c ≤ 0x66) || (0x41 ≤ c && c ≤ 0x46)

/-- White space. -/
def JsonSpace (w : Units) : Prop :=
  ∀ c ∈ w, isJsonSpace c = true

instance (w : Units) : Decidable (JsonSpace w) :=
  List.decidableBAll (fun c => isJsonSpace c = true) w

/-- Digits, at least one. -/
def Decimals (s : Units) : Prop :=
  s ≠ [] ∧ ∀ c ∈ s, isDecimal c = true

/-- What may stand between the quotes of a string. -/
inductive StringBody : Units → Prop
  | nil : StringBody []
  | unit {c : UInt16} {rest : Units} (hprintable : 0x20 ≤ c) (hquote : c ≠ 0x22)
      (hbackslash : c ≠ 0x5c) (hrest : StringBody rest) : StringBody (c :: rest)
  | escape {c : UInt16} {rest : Units}
      (hescape : c ∈ [0x22, 0x5c, 0x2f, 0x62, 0x66, 0x6e, 0x72, 0x74])
      (hrest : StringBody rest) : StringBody (0x5c :: c :: rest)
  | unicode {a b c d : UInt16} {rest : Units}
      (hhex : ∀ x ∈ [a, b, c, d], isHexadecimal x = true) (hrest : StringBody rest) :
      StringBody (0x5c :: 0x75 :: a :: b :: c :: d :: rest)

/-- Units that need no escape. -/
theorem StringBody.of_units {s : Units}
    (hs : s.all (fun c => decide (0x20 ≤ c ∧ c ≠ 0x22 ∧ c ≠ 0x5c)) = true) : StringBody s := by
  induction s with
  | nil => exact .nil
  | cons c s ih =>
      rw [List.all_cons, Bool.and_eq_true, decide_eq_true_eq] at hs
      obtain ⟨⟨hprintable, hquote, hbackslash⟩, hrest⟩ := hs
      exact .unit hprintable hquote hbackslash (ih hrest)

/-- A body between quotes. -/
def quoted (body : Units) : Units :=
  0x22 :: (body ++ [0x22])

/-- The whole part of a number: no zero stands before another digit. -/
inductive WholePart : Units → Prop
  | zero : WholePart [0x30]
  | positive {c : UInt16} {rest : Units} (hfirst : 0x31 ≤ c ∧ c ≤ 0x39)
      (hrest : ∀ x ∈ rest, isDecimal x = true) : WholePart (c :: rest)

/-- The fraction of a number. -/
inductive FractionPart : Units → Prop
  | none : FractionPart []
  | point {digits : Units} (hdigits : Decimals digits) : FractionPart (0x2e :: digits)

/-- The exponent of a number. -/
inductive ExponentPart : Units → Prop
  | none : ExponentPart []
  | exponent {e : UInt16} {sign digits : Units} (he : e ∈ [0x65, 0x45])
      (hsign : sign ∈ [[], [0x2b], [0x2d]]) (hdigits : Decimals digits) :
      ExponentPart (e :: (sign ++ digits))

/-- A number. -/
structure NumberParts (sign whole fraction exponent : Units) : Prop where
  sign : sign ∈ [[], [0x2d]]
  whole : WholePart whole
  fraction : FractionPart fraction
  exponent : ExponentPart exponent

/-- `null`, `true` and `false`. -/
def jsonLiterals : List Units :=
  [[0x6e, 0x75, 0x6c, 0x6c], [0x74, 0x72, 0x75, 0x65], [0x66, 0x61, 0x6c, 0x73, 0x65]]

/-! ## The grammar -/

/-- The parts of a text: a value, an object, a value with white space around it, and the
non-empty sequences of elements and of members. -/
inductive JsonPart where
  | value
  | object
  | element
  | elements
  | members
  deriving DecidableEq, Repr

/-- The texts of a part. -/
inductive JsonText : JsonPart → Units → Prop
  | literal {s : Units} (hliteral : s ∈ jsonLiterals) : JsonText .value s
  | number {sign whole fraction exponent : Units}
      (hnumber : NumberParts sign whole fraction exponent) :
      JsonText .value (sign ++ whole ++ fraction ++ exponent)
  | string {body : Units} (hbody : StringBody body) : JsonText .value (quoted body)
  | emptyArray {w : Units} (hw : JsonSpace w) : JsonText .value (0x5b :: (w ++ [0x5d]))
  | array {s : Units} (hs : JsonText .elements s) : JsonText .value (0x5b :: (s ++ [0x5d]))
  | object {s : Units} (hs : JsonText .object s) : JsonText .value s
  | emptyBraces {w : Units} (hw : JsonSpace w) : JsonText .object (0x7b :: (w ++ [0x7d]))
  | braces {s : Units} (hs : JsonText .members s) : JsonText .object (0x7b :: (s ++ [0x7d]))
  | element {w s w' : Units} (hw : JsonSpace w) (hs : JsonText .value s)
      (hw' : JsonSpace w') : JsonText .element (w ++ s ++ w')
  | lastElement {s : Units} (hs : JsonText .element s) : JsonText .elements s
  | nextElement {s rest : Units} (hs : JsonText .element s)
      (hrest : JsonText .elements rest) : JsonText .elements (s ++ 0x2c :: rest)
  | lastMember {w key w' s : Units} (hw : JsonSpace w) (hkey : StringBody key)
      (hw' : JsonSpace w') (hs : JsonText .element s) :
      JsonText .members (w ++ quoted key ++ w' ++ 0x3a :: s)
  | nextMember {w key w' s rest : Units} (hw : JsonSpace w) (hkey : StringBody key)
      (hw' : JsonSpace w') (hs : JsonText .element s) (hrest : JsonText .members rest) :
      JsonText .members (w ++ quoted key ++ w' ++ 0x3a :: s ++ 0x2c :: rest)

/-! ## Nesting -/

/-- The units other than the quote and the braces. -/
def Quiet (c : UInt16) : Prop :=
  c ≠ 0x22 ∧ c ≠ 0x7b ∧ c ≠ 0x7d

instance (c : UInt16) : Decidable (Quiet c) :=
  inferInstanceAs (Decidable (_ ∧ _))

/-- White space is quiet. -/
theorem quiet_of_isJsonSpace {c : UInt16} (hc : isJsonSpace c = true) : Quiet c := by
  simp only [isJsonSpace, Bool.or_eq_true, beq_iff_eq] at hc
  rcases hc with ((rfl | rfl) | rfl) | rfl <;> decide

/-- The units between the quote and the opening brace are quiet. -/
theorem quiet_of_le {c : UInt16} (hlow : 0x22 < c) (hhigh : c < 0x7b) : Quiet c := by
  refine ⟨?_, ?_, ?_⟩ <;> rintro rfl
  · exact absurd hlow (by decide)
  · exact absurd hhigh (by decide)
  · exact absurd hhigh (by decide)

/-- A digit is quiet. -/
theorem quiet_of_isDecimal {c : UInt16} (hc : isDecimal c = true) : Quiet c := by
  simp only [isDecimal, Bool.and_eq_true, decide_eq_true_eq] at hc
  apply quiet_of_le
  · exact Std.lt_of_lt_of_le (by decide) hc.1
  · exact Std.lt_of_le_of_lt hc.2 (by decide)

/-- A number consists of quiet units. -/
theorem NumberParts.quiet {sign whole fraction exponent : Units}
    (h : NumberParts sign whole fraction exponent) :
    ∀ c ∈ sign ++ whole ++ fraction ++ exponent, Quiet c := by
  intro c hc
  simp only [List.mem_append] at hc
  rcases hc with ((hc | hc) | hc) | hc
  · have hsign := h.sign
    simp only [List.mem_cons, List.not_mem_nil, or_false] at hsign
    rcases hsign with rfl | rfl
    · cases hc
    · rw [List.mem_singleton.mp hc]
      decide
  · cases h.whole with
    | zero =>
        rw [List.mem_singleton.mp hc]
        decide
    | positive hfirst hrest =>
        rcases List.mem_cons.mp hc with rfl | hmem
        · apply quiet_of_le
          · exact Std.lt_of_lt_of_le (by decide) hfirst.1
          · exact Std.lt_of_le_of_lt hfirst.2 (by decide)
        · exact quiet_of_isDecimal (hrest c hmem)
  · cases h.fraction with
    | none => cases hc
    | point hdigits =>
        rcases List.mem_cons.mp hc with rfl | hmem
        · decide
        · exact quiet_of_isDecimal (hdigits.2 c hmem)
  · cases h.exponent with
    | none => cases hc
    | exponent he hsign hdigits =>
        simp only [List.mem_cons, List.mem_append] at hc
        rcases hc with rfl | hmem | hmem
        · simp only [List.mem_cons, List.not_mem_nil, or_false] at he
          rcases he with rfl | rfl <;> decide
        · simp only [List.mem_cons, List.not_mem_nil, or_false] at hsign
          rcases hsign with rfl | rfl | rfl
          · cases hmem
          · rw [List.mem_singleton.mp hmem]
            decide
          · rw [List.mem_singleton.mp hmem]
            decide
        · exact quiet_of_isDecimal (hdigits.2 c hmem)

/-- The literals consist of quiet units. -/
theorem quiet_of_mem_jsonLiterals : ∀ s ∈ jsonLiterals, ∀ c ∈ s, Quiet c := by
  have hall : jsonLiterals.all (fun s => s.all fun c => decide (Quiet c)) = true := by decide
  intro s hs c hc
  have hliteral := List.all_eq_true.mp hall s hs
  exact of_decide_eq_true (List.all_eq_true.mp hliteral c hc)

/-- What a property of texts must be closed under to hold for every text of the
grammar, as far as quotes and braces go. -/
structure NestingRules (Q : Units → Prop) : Prop where
  nil : Q []
  append : ∀ {s t : Units}, Q s → Q t → Q (s ++ t)
  quiet : ∀ {c : UInt16}, Quiet c → Q [c]
  quoted : ∀ {body : Units}, StringBody body → Q (quoted body)
  braces : ∀ {s : Units}, Q s → Q (0x7b :: (s ++ [0x7d]))

namespace NestingRules

variable {Q : Units → Prop} (rules : NestingRules Q)

include rules

/-- Quiet units in a row. -/
theorem all_quiet {s : Units} (hs : ∀ c ∈ s, Quiet c) : Q s := by
  induction s with
  | nil => exact rules.nil
  | cons c s ih =>
      have hrest := ih fun x hx => hs x (List.mem_cons_of_mem c hx)
      exact rules.append (rules.quiet (hs c List.mem_cons_self)) hrest

/-- White space. -/
theorem space {w : Units} (hw : JsonSpace w) : Q w :=
  rules.all_quiet fun c hc => quiet_of_isJsonSpace (hw c hc)

/-- A text between brackets. -/
theorem brackets {s : Units} (hs : Q s) : Q (0x5b :: (s ++ [0x5d])) :=
  rules.append (rules.quiet (by decide)) (rules.append hs (rules.quiet (by decide)))

/-- Two texts with a quiet unit between them. -/
theorem separated {s t : Units} {c : UInt16} (hs : Q s) (hc : Quiet c) (ht : Q t) :
    Q (s ++ c :: t) :=
  rules.append hs (rules.append (rules.quiet hc) ht)

/-- A member of an object. -/
theorem member {w key w' s : Units} (hw : JsonSpace w) (hkey : StringBody key)
    (hw' : JsonSpace w') (hs : Q s) : Q (w ++ Lib.quoted key ++ w' ++ 0x3a :: s) := by
  have hname : Q (w ++ Lib.quoted key) := rules.append (rules.space hw) (rules.quoted hkey)
  exact rules.separated (rules.append hname (rules.space hw')) (by decide) hs

end NestingRules

/-- **Nesting**: a property that is closed under the rules holds for every text of the
grammar. -/
theorem JsonText.rec_nesting {Q : Units → Prop} (rules : NestingRules Q) {part : JsonPart}
    {s : Units} (h : JsonText part s) : Q s := by
  induction h with
  | literal hliteral => exact rules.all_quiet (quiet_of_mem_jsonLiterals _ hliteral)
  | number hnumber => exact rules.all_quiet hnumber.quiet
  | string hbody => exact rules.quoted hbody
  | emptyArray hw => exact rules.brackets (rules.space hw)
  | array _ ih => exact rules.brackets ih
  | object _ ih => exact ih
  | emptyBraces hw => exact rules.braces (rules.space hw)
  | braces _ ih => exact rules.braces ih
  | element hw _ hw' ih => exact rules.append (rules.append (rules.space hw) ih) (rules.space hw')
  | lastElement _ ih => exact ih
  | nextElement _ _ ih ihrest => exact rules.separated ih (by decide) ihrest
  | lastMember hw hkey hw' _ ih => exact rules.member hw hkey hw' ih
  | nextMember hw hkey hw' _ _ ih ihrest =>
      exact rules.separated (rules.member hw hkey hw' ih) (by decide) ihrest

/-- An object stands between braces, and what is between them nests. -/
theorem JsonText.object_braces {Q : Units → Prop} (rules : NestingRules Q) {s : Units}
    (h : JsonText .object s) : ∃ inner, s = 0x7b :: (inner ++ [0x7d]) ∧ Q inner := by
  cases h with
  | emptyBraces hw => exact ⟨_, rfl, rules.space hw⟩
  | braces hs => exact ⟨_, rfl, hs.rec_nesting rules⟩

end Lib
end InfinityLabs
