import Mathlib.Tactic.Common

/-!
# Strings and request values of the bank server

A JavaScript string is its list of UTF-16 code units.  `trim` strips the white
space and line terminators of the language, which are also what `\s` stands for
in a regular expression.  `toLowerCase` follows the Unicode tables of the
runtime; nothing below depends on them, so it stays a parameter wherever an
address is normalised.

The addresses of the bank are declared `lowercase: true, trim: true` in both
mongoose schemas.  `castEmail` is that pair of setters, which mongoose runs on
stored values and on the values of a query alike.
-/

namespace InfinityLabs
namespace Server

/-- A JavaScript string: its UTF-16 code units. -/
abbrev JsString := List UInt16

/-- The string of a literal of the source (code points below `0x10000`). -/
def js (s : String) : JsString :=
  s.toList.map fun c => UInt16.ofNat c.toNat

/-- White space and line terminators, the class `\s`. -/
def isWhiteSpace (c : UInt16) : Bool :=
  (0x09 ≤ c && c ≤ 0x0d) || c == 0x20 || c == 0xa0 || c == 0x1680 ||
    (0x2000 ≤ c && c ≤ 0x200a) || c == 0x2028 || c == 0x2029 || c == 0x202f ||
    c == 0x205f || c == 0x3000 || c == 0xfeff

/-- `String.prototype.trim`. -/
def trim (s : JsString) : JsString :=
  ((s.dropWhile isWhiteSpace).reverse.dropWhile isWhiteSpace).reverse

/-- The two setters of an address; mongoose runs those of a path from the last
declared one to the first, so `trim` comes before `lowercase`. -/
def castEmail (toLowerCase : JsString → JsString) (s : JsString) : JsString :=
  toLowerCase (trim s)

/-- What `toLowerCase` does to a string of ASCII characters. -/
def asciiLower (s : JsString) : JsString :=
  s.map fun c => if 0x41 ≤ c && c ≤ 0x5a then c + 0x20 else c

/-- The class `[^\s@]` of the address patterns. -/
def isEmailChar (c : UInt16) : Bool :=
  !isWhiteSpace c && c != 0x40

/-- `/^[^\s@]+@[^\s@]+\.[^\s@]+$/`: a non-empty local part up to the only `@`,
then a domain with a dot that is neither its first nor its last character. -/
def matchesEmail (s : JsString) : Bool :=
  let localPart := s.takeWhile (· != 0x40)
  match s.drop localPart.length with
  | [] => false
  | _ :: domain =>
      localPart != [] && localPart.all isEmailChar && domain.all isEmailChar &&
        (domain.drop 1).dropLast.contains 0x2e

/-- A field of a request body, as far as the endpoints tell values apart:
missing or falsy, a non-empty string, or any other truthy JSON value. -/
inductive Field where
  | absent
  | text (s : JsString)
  | other
  deriving DecidableEq, Repr

/-- `!field`. -/
def Field.isFalsy : Field → Bool
  | .absent => true
  | .text s => s == []
  | .other => false

/-- What a handler throws: an `AppError` with its status, mongoose's
`ValidationError` with the messages of the failed paths, a duplicate key, a
write conflict, or a plain `TypeError`. -/
inductive JsError where
  | app (message : String) (statusCode : Nat)
  | validation (messages : List String)
  | duplicateKey
  | writeConflict
  | typeError
  deriving DecidableEq, Repr

/-- The receiver of a string method: only a string has one. -/
def Field.asString : Field → Except JsError JsString
  | .text s => .ok s
  | .absent => .error .typeError
  | .other => .error .typeError

/-- Mongoose's cast of a path of type `String`: an object or array fails it. -/
def Field.castString : Field → Except JsError JsString
  | .text s => .ok s
  | .absent => .ok []
  | .other => .error (.validation ["Cast to string failed"])

end Server
end InfinityLabs
