import InfinityLabs.Server.JsString
import Mathlib.Tactic.Linarith

/-!
# Amounts and passwords

`validateTransactionAmount` is the gate every transfer passes.  A finite number
is modelled by the decimal text that `toString` prints for it, which inside the
accepted range is positional and has no trailing zero.  An accepted amount is
therefore a whole number of cents; `validateTransactionAmount_sanitized` proves
it and gives its bounds.
-/

namespace InfinityLabs
namespace Server

/-- `MIN_AMOUNT = 0.01`, in cents. -/
def MIN_AMOUNT : Int := 1

/-- `MAX_AMOUNT = 1_000_000`, in cents. -/
def MAX_AMOUNT : Int := 100000000

/-- `DEFAULT_BALANCE = 500`, in cents. -/
def DEFAULT_BALANCE : Int := 50000

/-- A finite number by its shortest decimal text: `units / 10 ^ places`. -/
structure Decimal where
  units : Int
  places : Nat
  lowest : places = 0 ∨ units % 10 ≠ 0
  deriving DecidableEq, Repr

/-- The amount of a request. -/
inductive AmountArg where
  | missing
  | notNumber
  | nan
  | infinite
  | finite (d : Decimal)
  deriving DecidableEq, Repr

/-- The object that `validateTransactionAmount` returns; `sanitized` in cents. -/
structure AmountValidation where
  isValid : Bool
  error : Option String
  sanitized : Option Int
  deriving DecidableEq, Repr

/-- The local helper `invalid` of `validateTransactionAmount`. -/
def AmountValidation.invalid (error : String) : AmountValidation :=
  { isValid := false, error := some error, sanitized := none }

/-- `utils/validation.util.js`, `validateTransactionAmount`. -/
def validateTransactionAmount : AmountArg → AmountValidation
  | .missing => .invalid "Amount is required"
  | .notNumber => .invalid "Amount must be a number"
  | .nan => .invalid "Amount cannot be NaN"
  | .infinite => .invalid "Amount must be a finite number"
  | .finite d =>
      if d.units * 100 < MIN_AMOUNT * 10 ^ d.places then
        .invalid "Amount must be at least 0.01"
      else if d.units * 100 > MAX_AMOUNT * 10 ^ d.places then
        .invalid "Amount cannot exceed 1,000,000"
      else if d.places > 2 then
        .invalid "Amount cannot have more than 2 decimal places"
      else
        { isValid := true, error := none,
          sanitized := some (d.units * 10 ^ (2 - d.places)) }

/-- An accepted amount is a whole number of cents between the two bounds. -/
theorem validateTransactionAmount_sanitized {amount : AmountArg} {cents : Int}
    (h : (validateTransactionAmount amount).sanitized = some cents) :
    MIN_AMOUNT ≤ cents ∧ cents ≤ MAX_AMOUNT := by
  cases amount with
  | finite d =>
      simp only [validateTransactionAmount] at h
      split at h
      · cases h
      · rename_i hmin
        split at h
        · cases h
        · rename_i hmax
          split at h
          · cases h
          · rename_i hplaces
            cases h
            have hcases : d.places = 0 ∨ d.places = 1 ∨ d.places = 2 := by omega
            rcases hcases with h0 | h1 | h2
            · simp only [h0, MIN_AMOUNT, MAX_AMOUNT] at *
              omega
            · simp only [h1, MIN_AMOUNT, MAX_AMOUNT] at *
              omega
            · simp only [h2, MIN_AMOUNT, MAX_AMOUNT] at *
              omega
  | _ => cases h

/-- `PASSWORD_REGEX`: a lower-case letter, an upper-case letter, a digit, and at
least eight characters, none of them a line terminator. -/
def PASSWORD_REGEX (s : JsString) : Bool :=
  let isLineTerminator : UInt16 → Bool := fun c =>
    c == 0x0a || c == 0x0d || c == 0x2028 || c == 0x2029
  s.any (fun c => 0x61 ≤ c && c ≤ 0x7a) && s.any (fun c => 0x41 ≤ c && c ≤ 0x5a) &&
    s.any (fun c => 0x30 ≤ c && c ≤ 0x39) && 8 ≤ s.length &&
    s.all fun c => !isLineTerminator c

/-!
## The user documents

The record of `models/user.model.js`, with the setters and validators that its
schema declares.  Times are milliseconds, money is in cents.
-/

/-- `USER_STATUS`. -/
inductive UserStatus where
  | PENDING
  | ACTIVE
  deriving DecidableEq, Repr

/-- A stored user document. -/
structure User where
  id : JsString
  firstName : JsString
  lastName : JsString
  email : JsString
  password : JsString
  phone : JsString
  status : UserStatus
  verificationToken : Option JsString
  otpHash : Option JsString
  otpExpiry : Option Int
  otpAttempts : Nat
  balance : Int
  deriving DecidableEq, Repr

/-- The validators of the two name paths: `required`, `minlength`, `maxlength`. -/
def validateName (label : String) (s : JsString) : List String :=
  if s = [] then [label ++ " is required"]
  else if s.length < 2 then [label ++ " must be at least 2 characters"]
  else if s.length > 50 then [label ++ " cannot exceed 50 characters"]
  else []

def validateFirstName : JsString → List String := validateName "First name"

def validateLastName : JsString → List String := validateName "Last name"

/-- `required` and `match` of an address path. -/
def validateAddress (required invalid : String) (s : JsString) : List String :=
  if s = [] then [required]
  else if matchesEmail s then []
  else [invalid]

def validateUserEmail : JsString → List String :=
  validateAddress "Email is required" "Please provide a valid email address"

def validateUserPassword (s : JsString) : List String :=
  if s = [] then ["Password is required"]
  else if s.length < 8 then ["Password must be at least 8 characters"]
  else []

/-- `/^\+?[1-9]\d{7,14}$/`. -/
def matchesPhone (s : JsString) : Bool :=
  let digits := if s.head? = some 0x2b then s.drop 1 else s
  match digits with
  | [] => false
  | first :: rest =>
      (0x31 ≤ first && first ≤ 0x39) && 7 ≤ rest.length && rest.length ≤ 14 &&
        rest.all fun c => 0x30 ≤ c && c ≤ 0x39

def validatePhone (s : JsString) : List String :=
  if s = [] then ["Phone number is required"]
  else if matchesPhone s then []
  else ["Please provide a valid phone number"]

/-- The messages of the failed paths of a user document, in schema order. -/
def validateUser (u : User) : List String :=
  validateFirstName u.firstName ++ validateLastName u.lastName ++
    validateUserEmail u.email ++ validateUserPassword u.password ++
    validatePhone u.phone ++
    if u.balance < 0 then ["Balance cannot be negative"] else []

end Server
end InfinityLabs
