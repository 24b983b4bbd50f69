import InfinityLabs.Server.JsString

/-!
# Structured replies of the model

The assistant's text may carry a JSON object with a `transactions` array, often
wrapped in prose.  `parseStructuredResponse` walks the text from brace to brace:
`findBalancedJson` cuts out one balanced block, and the first block that parses
to an object with transactions is the payload.

`JSON.parse` is a parameter; its values are those of the language, with a number
given by the text that `String` makes of it.
-/

namespace InfinityLabs
namespace Server

/-- The values of `JSON.parse`.  The keys of an object are distinct. -/
inductive Json where
  | null
  | bool (b : Bool)
  | number (text : JsString)
  | string (s : JsString)
  | array (items : List Json)
  | object (fields : List (JsString × Json))

namespace Json

/-- `value[name]`, absent for `undefined`. -/
def field (name : JsString) : Json → Option Json
  | .object fields => (fields.find? fun entry => entry.1 == name).map Prod.snd
  | _ => none

/-- `Boolean(value)`. -/
def isTruthy : Json → Bool
  | .null => false
  | .bool b => b
  | .number text => text != js "0"
  | .string s => s != []
  | .array _ => true
  | .object _ => true

mutual

/-- `String(value)`; an object with a `toString` of its own has no text, since no
JSON value can be called. -/
def asText : Json → Option JsString
  | .null => some (js "null")
  | .bool b => some (if b then js "true" else js "false")
  | .number text => some text
  | .string s => some s
  | .array items => joinItems items
  | .object fields =>
      if fields.any fun entry => entry.1 == js "toString" then none
      else some (js "[object Object]")

/-- The items of an array with commas between them. -/
def joinItems : List Json → Option JsString
  | [] => some []
  | [item] => itemText item
  | item :: rest => do
      let first ← itemText item
      let others ← joinItems rest
      pure (first ++ js "," ++ others)

/-- An item of an array as text: `null` leaves a gap. -/
def itemText : Json → Option JsString
  | .null => some []
  | item => asText item

end

end Json

/-- `str.indexOf(c, from)`. -/
def indexOf (c : UInt16) (str : JsString) (start : Nat) : Option Nat :=
  ((str.drop start).findIdx? fun ch => ch == c).map fun offset => start + offset

/-- The loop of `findBalancedJson` at index `i`, on the text from there: the index
after the brace that closes the block. -/
def scanBalanced (i depth : Nat) (inString escape : Bool) : JsString → Option Nat
  | [] => none
  | ch :: rest =>
      if escape then scanBalanced (i + 1) depth inString false rest
      else if ch == 0x5c && inString then scanBalanced (i + 1) depth inString true rest
      else if ch == 0x22 then scanBalanced (i + 1) depth (!inString) false rest
      else if inString then scanBalanced (i + 1) depth inString false rest
      else if ch == 0x7b then scanBalanced (i + 1) (depth + 1) inString false rest
      else if ch == 0x7d then
        -- the scan starts at a brace, so `depth` is positive here
        if depth - 1 = 0 then some (i + 1)
        else scanBalanced (i + 1) (depth - 1) inString false rest
      else scanBalanced (i + 1) depth inString false rest

/-- `findBalancedJson`: the balanced block that starts at `startIndex`. -/
def findBalancedJson (str : JsString) (startIndex : Nat) : Option JsString :=
  if str[startIndex]? = some 0x7b then
    (scanBalanced startIndex 0 false false (str.drop startIndex)).map fun stop =>
      (str.drop startIndex).take (stop - startIndex)
  else none

/-- The payload of a reply. -/
structure StructuredReply where
  message : JsString
  transactions : List Json
  summary : Json

section

variable (parse : JsString → Option Json)

/-- The text behind the payload, or the message of a second object there. -/
def extraMessage (after : JsString) : Json :=
  match (indexOf 0x7b after 0).bind (findBalancedJson after) with
  | some extraJsonStr =>
      match (parse extraJsonStr).bind (Json.field (js "message")) with
      | some message => if message.isTruthy then message else .string []
      | none => .string []
  | none => if after.head? = some 0x7b then .string [] else .string after

/-- `parts.filter(Boolean).join('\n\n')`. -/
def joinParts (parts : List Json) : Option JsString :=
  ((parts.filter Json.isTruthy).mapM Json.asText).map fun texts =>
    (texts.intersperse (js "\n\n")).flatten

/-- The body of the `try` for the block at `start`: its payload if it parses and
has transactions. -/
def payloadAt (str : JsString) (start : Nat) (jsonStr : JsString) :
    Option StructuredReply := do
  let parsed ← parse jsonStr
  match parsed.field (js "transactions") with
  | some (.array transactions) =>
      let before := trim (str.take start)
      let after := trim (str.drop (start + jsonStr.length))
      let message ← joinParts
        [.string before, (parsed.field (js "message")).getD .null, extraMessage parse after]
      pure ⟨message, transactions, (parsed.field (js "summary")).getD .null⟩
  | _ => none

/-- The scan stops behind a brace that closes. -/
theorem scanBalanced_last {i depth stop : Nat} {inString escape : Bool} {str : JsString}
    (h : scanBalanced i depth inString escape str = some stop) :
    i < stop ∧ str[stop - 1 - i]? = some 0x7d := by
  induction str generalizing i depth inString escape with
  | nil => cases h
  | cons ch rest ih =>
      have next : ∀ {depth inString escape},
          scanBalanced (i + 1) depth inString escape rest = some stop →
            i < stop ∧ (ch :: rest)[stop - 1 - i]? = some 0x7d := by
        intro depth inString escape hrest
        obtain ⟨hgt, hlast⟩ := ih hrest
        have hindex : stop - 1 - i = stop - 1 - (i + 1) + 1 := by omega
        exact ⟨by omega, by rw [hindex, List.getElem?_cons_succ, hlast]⟩
      unfold scanBalanced at h
      split at h
      · exact next h
      · split at h
        · exact next h
        · split at h
          · exact next h
          · split at h
            · exact next h
            · split at h
              · exact next h
              · split at h
                · rename_i hclose
                  split at h
                  · obtain rfl := Option.some.inj h
                    rw [eq_of_beq hclose]
                    exact ⟨Nat.lt_succ_self i, by simp⟩
                  · exact next h
                · exact next h

/-- A block ends with the brace that closes it. -/
theorem findBalancedJson_last {str block : JsString} {start : Nat}
    (h : findBalancedJson str start = some block) :
    0 < block.length ∧ str[start + block.length - 1]? = some 0x7d := by
  rw [findBalancedJson] at h
  split at h
  · obtain ⟨stop, hstop, rfl⟩ := Option.map_eq_some_iff.mp h
    obtain ⟨hgt, hlast⟩ := scanBalanced_last hstop
    rw [List.getElem?_drop] at hlast
    obtain ⟨hlt, -⟩ := List.getElem?_eq_some_iff.mp hlast
    have hlength : ((str.drop start).take (stop - start)).length = stop - start := by
      rw [List.length_take, List.length_drop]
      omega
    have hindex : start + (stop - start) - 1 = start + (stop - 1 - start) := by omega
    rw [hlength, hindex]
    exact ⟨by omega, hlast⟩
  · cases h

/-- A character is found behind the index that the search starts at. -/
theorem le_of_indexOf {c : UInt16} {str : JsString} {pos start : Nat}
    (h : indexOf c str pos = some start) : pos ≤ start := by
  obtain ⟨offset, -, rfl⟩ := Option.map_eq_some_iff.mp h
  exact Nat.le_add_right pos offset

/-- The loop of `parseStructuredResponse` from position `pos`. -/
def searchPayload (str : JsString) (pos : Nat) : Option StructuredReply :=
  if pos < str.length then
    match hstart : indexOf 0x7b str pos with
    | none => none
    | some start =>
        match hblock : findBalancedJson str start with
        | none => none
        | some jsonStr =>
            match payloadAt parse str start jsonStr with
            | some reply => some reply
            | none => searchPayload str (start + jsonStr.length)
  else none
termination_by str.length - pos
decreasing_by
  have hle := le_of_indexOf hstart
  have hpos := (findBalancedJson_last hblock).1
  omega

/-- `parseStructuredResponse`. -/
def parseStructuredResponse (content : JsString) : Option StructuredReply :=
  searchPayload parse (trim content) 0

end

end Server
end InfinityLabs
