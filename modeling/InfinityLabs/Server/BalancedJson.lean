import InfinityLabs.Lib.JsonText
import InfinityLabs.Server.StructuredReply

/-!
# Balanced blocks

`findBalancedJson` scans from a brace to the brace that closes it, and looks at quotes,
backslashes and braces alone.  On a JSON object it stops at the object's last brace,
whatever is nested in the object and whatever stands around it.
-/

namespace InfinityLabs
namespace Server

open Lib

/-! ## Texts that the scan passes -/

/-- Inside a block the scan comes out of the text as it went in. -/
def Passes (s : JsString) : Prop :=
  ∀ i depth rest, 0 < depth →
    scanBalanced i depth false false (s ++ rest) =
      scanBalanced (i + s.length) depth false false rest

/-- A quiet unit. -/
theorem scan_quiet {c : UInt16} (hc : Quiet c) (i depth : Nat) (rest : JsString) :
    scanBalanced i depth false false (c :: rest) =
      scanBalanced (i + 1) depth false false rest := by
  obtain ⟨hquote, hopen, hclose⟩ := hc
  simp [scanBalanced, hquote, hopen, hclose]

/-- An ordinary unit of a string. -/
theorem scan_unit {c : UInt16} (hquote : c ≠ 0x22) (hbackslash : c ≠ 0x5c) (i depth : Nat)
    (rest : JsString) :
    scanBalanced i depth true false (c :: rest) =
      scanBalanced (i + 1) depth true false rest := by
  simp [scanBalanced, hquote, hbackslash]

/-- An escape hides the unit behind it. -/
theorem scan_escape (c : UInt16) (i depth : Nat) (rest : JsString) :
    scanBalanced i depth true false (0x5c :: c :: rest) =
      scanBalanced (i + 2) depth true false rest := by
  simp [scanBalanced]

/-- A hexadecimal digit is an ordinary unit. -/
theorem ordinary_of_isHexadecimal {c : UInt16} (hc : isHexadecimal c = true) :
    c ≠ 0x22 ∧ c ≠ 0x5c := by
  constructor <;> rintro rfl <;> revert hc <;> decide

/-- Ordinary units in a row. -/
theorem scan_units {s : JsString} (hs : ∀ c ∈ s, c ≠ 0x22 ∧ c ≠ 0x5c) (i depth : Nat)
    (rest : JsString) :
    scanBalanced i depth true false (s ++ rest) =
      scanBalanced (i + s.length) depth true false rest := by
  induction s generalizing i with
  | nil => rfl
  | cons c s ih =>
      obtain ⟨hquote, hbackslash⟩ := hs c List.mem_cons_self
      have hindex : i + 1 + s.length = i + (c :: s).length := by
        rw [List.length_cons]
        omega
      rw [List.cons_append, scan_unit hquote hbackslash,
        ih fun x hx => hs x (List.mem_cons_of_mem c hx), hindex]

/-- The body of a string is scanned to its end. -/
theorem scan_body {body : JsString} (hbody : StringBody body) (i depth : Nat)
    (rest : JsString) :
    scanBalanced i depth true false (body ++ rest) =
      scanBalanced (i + body.length) depth true false rest := by
  induction hbody generalizing i with
  | nil => rfl
  | @unit c body _ hquote hbackslash _ ih =>
      have hindex : i + 1 + body.length = i + (c :: body).length := by
        rw [List.length_cons]
        omega
      rw [List.cons_append, scan_unit hquote hbackslash, ih, hindex]
  -- an escape takes two units, whatever the second one is
  | @escape c body _ _ ih =>
      have hindex : i + 2 + body.length = i + (0x5c :: c :: body).length := by
        simp only [List.length_cons]
        omega
      rw [List.cons_append, List.cons_append, scan_escape, ih, hindex]
  | @unicode a b c d body hhex _ ih =>
      -- the escape hides the `u`, and the digits are ordinary units
      have hindex : i + 2 + 4 + body.length =
          i + (0x5c :: 0x75 :: a :: b :: c :: d :: body).length := by
        simp only [List.length_cons]
        omega
      have hdigits := scan_units (s := [a, b, c, d])
        (fun x hx => ordinary_of_isHexadecimal (hhex x hx)) (i + 2) depth (body ++ rest)
      calc scanBalanced i depth true false (0x5c :: 0x75 :: a :: b :: c :: d :: body ++ rest)
          = scanBalanced (i + 2) depth true false ([a, b, c, d] ++ (body ++ rest)) :=
            scan_escape 0x75 i depth _
        _ = scanBalanced (i + 2 + 4) depth true false (body ++ rest) := hdigits
        _ = _ := by rw [ih, hindex]

/-- A quote enters or leaves a string. -/
theorem scan_quote (i depth : Nat) (inString : Bool) (rest : JsString) :
    scanBalanced i depth inString false (0x22 :: rest) =
      scanBalanced (i + 1) depth (!inString) false rest := by
  simp [scanBalanced]

/-- A brace opens a block. -/
theorem scan_open (i depth : Nat) (rest : JsString) :
    scanBalanced i depth false false (0x7b :: rest) =
      scanBalanced (i + 1) (depth + 1) false false rest := by
  simp [scanBalanced]

/-- A brace closes an inner block. -/
theorem scan_close {depth : Nat} (hdepth : 0 < depth) (i : Nat) (rest : JsString) :
    scanBalanced i (depth + 1) false false (0x7d :: rest) =
      scanBalanced (i + 1) depth false false rest := by
  have hinner : depth ≠ 0 := Nat.ne_of_gt hdepth
  simp [scanBalanced, hinner]

/-- A brace closes the whole block. -/
theorem scan_closeLast (i : Nat) (rest : JsString) :
    scanBalanced i 1 false false (0x7d :: rest) = some (i + 1) := by
  simp [scanBalanced]

/-- The scan passes strings and nested blocks. -/
theorem nestingRules_passes : NestingRules Passes where
  nil := fun i depth rest _ => rfl
  append := by
    intro s t hs ht i depth rest hdepth
    rw [List.append_assoc, hs i depth _ hdepth, ht _ depth rest hdepth, List.length_append,
      Nat.add_assoc]
  quiet := fun hc i depth rest _ => scan_quiet hc i depth rest
  quoted := by
    intro body hbody i depth rest _
    have hindex : i + 1 + body.length + 1 = i + (quoted body).length := by
      simp only [quoted, List.length_cons, List.length_append, List.length_nil]
      omega
    rw [quoted, List.cons_append, List.append_assoc, scan_quote, Bool.not_false,
      scan_body hbody, List.cons_append, scan_quote, Bool.not_true, List.nil_append, hindex]
    rfl
  braces := by
    intro s hs i depth rest hdepth
    have hindex : i + 1 + s.length + 1 = i + (0x7b :: (s ++ [0x7d])).length := by
      simp only [List.length_cons, List.length_append, List.length_nil]
      omega
    rw [List.cons_append, List.append_assoc, scan_open, hs _ _ _ (Nat.succ_pos depth),
      List.cons_append, scan_close hdepth, List.nil_append, hindex]

/-! ## Whole objects -/

/-- The scan of an object stops behind its last brace. -/
theorem scanBalanced_object {J : JsString} (hJ : JsonText .object J) (i : Nat)
    (after : JsString) :
    scanBalanced i 0 false false (J ++ after) = some (i + J.length) := by
  -- between the outer braces the depth is at least one, as `Passes` asks
  obtain ⟨inner, rfl, hinner⟩ := hJ.object_braces nestingRules_passes
  have hindex : i + 1 + inner.length + 1 = i + (0x7b :: (inner ++ [0x7d])).length := by
    simp only [List.length_cons, List.length_append, List.length_nil]
    omega
  rw [List.cons_append, List.append_assoc, scan_open, Nat.zero_add, hinner _ _ _ Nat.one_pos,
    List.cons_append, scan_closeLast, hindex]

/-- An object begins with a brace. -/
theorem head?_object {J : JsString} (hJ : JsonText .object J) : J.head? = some 0x7b := by
  cases hJ <;> rfl

/-- `findBalancedJson` at an object cuts it out. -/
theorem findBalancedJson_object {J : JsString} (hJ : JsonText .object J)
    (before after : JsString) :
    findBalancedJson (before ++ J ++ after) before.length = some J := by
  have hdrop : (before ++ J ++ after).drop before.length = J ++ after := by
    rw [List.append_assoc, List.drop_left]
  have hbrace : (before ++ J ++ after)[before.length]? = some 0x7b := by
    rw [← List.head?_drop, hdrop, List.head?_append, head?_object hJ]
    rfl
  rw [findBalancedJson, if_pos hbrace, hdrop, scanBalanced_object hJ, Option.map_some,
    Nat.add_sub_cancel_left, List.take_left]

/-- `findBalancedJson` for any `startIndex`; `str[startIndex]` is `undefined` for a
negative one. -/
def findBalancedJsonFrom (str : JsString) : Int → Option JsString
  | .ofNat startIndex => findBalancedJson str startIndex
  | .negSucc _ => none

/-- A block is what the text begins with at the start index. -/
theorem findBalancedJson_prefix {str block : JsString} {startIndex : Nat}
    (h : findBalancedJson str startIndex = some block) : block <+: str.drop startIndex := by
  rw [findBalancedJson] at h
  split at h
  · obtain ⟨stop, -, rfl⟩ := Option.map_eq_some_iff.mp h
    exact List.take_prefix _ _
  · cases h

/-- **`findBalancedJson` extracts whole objects**: started at a JSON object it returns the
object, whatever stands before and after it; and started anywhere in any text it returns
nothing or what the text begins with there. -/
theorem findBalancedJson_exact :
    (∀ J, JsonText .object J → ∀ before after : JsString,
      findBalancedJsonFrom (before ++ J ++ after) before.length = some J) ∧
    ∀ (str : JsString) (startIndex : Int),
      findBalancedJsonFrom str startIndex = none ∨
        ∃ block, findBalancedJsonFrom str startIndex = some block ∧
          0 ≤ startIndex ∧ block <+: str.drop startIndex.toNat := by
  refine ⟨fun J hJ before after => findBalancedJson_object hJ before after, ?_⟩
  intro str startIndex
  cases startIndex with
  | negSucc n => exact Or.inl rfl
  | ofNat n =>
      cases hblock : findBalancedJson str n with
      | none => exact Or.inl hblock
      | some block =>
          exact Or.inr ⟨block, hblock, Int.natCast_nonneg n, findBalancedJson_prefix hblock⟩

/-- An object with no transactions: an array in a member. -/
def noTransactions : JsString :=
  js "\x7b\"transactions\": []\x7d"

/-- Its text is that of an object. -/
theorem noTransactions_text : JsonText .object noTransactions := by
  have hnone : JsonSpace [] := by decide
  have hkey : StringBody (js "transactions") := .of_units (by decide)
  have harray : JsonText .element (js " " ++ (0x5b :: ([] ++ [0x5d])) ++ []) :=
    .element (by decide) (.emptyArray hnone) hnone
  exact .braces (.lastMember hnone hkey hnone harray)

/-- The object is found behind a brace that does not open it. -/
theorem findBalancedJson_exact_sample :
    findBalancedJsonFrom (js "a \x7b b " ++ noTransactions ++ js " \x7d") 6 =
      some noTransactions :=
  findBalancedJson_exact.1 noTransactions noTransactions_text (js "a \x7b b ") (js " \x7d")

end Server
end InfinityLabs
