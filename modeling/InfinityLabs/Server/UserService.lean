import InfinityLabs.Lib.Documents
import InfinityLabs.Server.User

/-!
# The user service

`services/user.service.js` on the list of user documents.  The library calls
whose results the code does not determine are gathered in `Runtime` (the Unicode
tables, bcrypt and SHA-256); random values and the time are arguments.
-/

namespace InfinityLabs
namespace Server

open Lib

/-- The functions of the runtime and of the libraries that the service calls. -/
structure Runtime where
  toLowerCase : JsString → JsString
  bcryptHash : JsString → JsString → JsString
  bcryptCompare : JsString → JsString → Bool
  sha256Hex : JsString → JsString

/-- `OTP_EXPIRY_MS`. -/
def OTP_EXPIRY_MS : Int := 5 * 60 * 1000

/-- `MAX_OTP_ATTEMPTS`. -/
def MAX_OTP_ATTEMPTS : Nat := 5

/-- `OTP_DIGITS`. -/
def OTP_DIGITS : Nat := 6

/-- `OTP_MIN`. -/
def OTP_MIN : Nat := 10 ^ (OTP_DIGITS - 1)

/-- `OTP_MAX`. -/
def OTP_MAX : Nat := 10 ^ OTP_DIGITS

/-- A value of `crypto.randomInt(OTP_MIN, OTP_MAX)`. -/
structure OtpDraw where
  value : Nat
  ge_min : OTP_MIN ≤ value
  lt_max : value < OTP_MAX

/-- `String(value).padStart(OTP_DIGITS, '0')`. -/
def OtpDraw.text (draw : OtpDraw) : JsString :=
  let digits := (Nat.toDigits 10 draw.value).map fun c => UInt16.ofNat c.toNat
  List.replicate (OTP_DIGITS - digits.length) 0x30 ++ digits

/-- What an `issueOtp` draws: the code, the bcrypt salt and the time. -/
structure OtpIssue where
  draw : OtpDraw
  salt : JsString
  now : Int

section

variable (rt : Runtime)

/-- The stored address that `email.trim().toLowerCase()` is looked up as. -/
def lookupAddress (email : JsString) : JsString :=
  castEmail rt.toLowerCase (rt.toLowerCase (trim email))

/-- `findUserByEmail`, and `findUserByEmailWithPassword` with the password
selected as well. -/
def findUserByEmail (users : List User) (email : JsString) : Option User :=
  users.find? fun u => u.email == lookupAddress rt email

/-- `utils/generate.util.js`, `hashToken`. -/
def hashToken : Field → Except JsError JsString
  | .text token => .ok (rt.sha256Hex token)
  | .absent => .error (.app "Token is required for hashing" 400)
  | .other => .error (.app "Token is required for hashing" 400)

/-- The filter of `findAndVerifyUserByToken`. -/
def awaitsToken (hash : JsString) (u : User) : Bool :=
  u.verificationToken == some hash && u.status == .PENDING

/-- Its update: `status: ACTIVE`, `$unset: verificationToken`. -/
def activate (u : User) : User :=
  { u with status := .ACTIVE, verificationToken := none }

/-- `findAndVerifyUserByToken`: whether a user matched, and the users after. -/
def findAndVerifyUserByToken (users : List User) (token : Field) :
    Except JsError (Option User × List User) :=
  match hashToken rt token with
  | .error e => .error e
  | .ok hash =>
      .ok ((users.find? (awaitsToken hash)).map activate,
        updateFirst (awaitsToken hash) activate users)

/-- The body of a signup request; a scalar in a path that mongoose casts stands
as its text. -/
structure SignupBody where
  firstName : Field
  lastName : Field
  email : Field
  phone : Field
  password : Field

/-- What a signup draws: the document's `id`, the bcrypt salt and the
verification token. -/
structure SignupDraw where
  id : JsString
  salt : JsString
  verificationToken : JsString

/-- `createUser`: the new document after the setters of its schema, its plain
verification token, and the users with it. -/
def createUser (users : List User) (body : SignupBody) (draw : SignupDraw) :
    Except JsError (User × JsString × List User) := do
  let password ← body.password.asString
  let email ← body.email.asString
  let firstName ← body.firstName.castString
  let lastName ← body.lastName.castString
  let phone ← body.phone.castString
  let user : User :=
    { id := draw.id
      firstName := trim firstName
      lastName := trim lastName
      email := lookupAddress rt email
      password := rt.bcryptHash password draw.salt
      phone := trim phone
      status := .PENDING
      verificationToken := some (rt.sha256Hex draw.verificationToken)
      otpHash := none
      otpExpiry := none
      otpAttempts := 0
      balance := DEFAULT_BALANCE }
  match validateUser user with
  | [] =>
      if users.any fun u => u.id == user.id || u.email == user.email then
        .error .duplicateKey
      else .ok (user, draw.verificationToken, users ++ [user])
  | messages => .error (.validation messages)

/-- `regenerateVerificationToken`: the new plain token if a pending user has the
address, and the users after. -/
def regenerateVerificationToken (users : List User) (email verificationToken : JsString) :
    Option JsString × List User :=
  let isPending : User → Bool := fun u =>
    u.email == lookupAddress rt email && u.status == .PENDING
  if users.any isPending then
    (some verificationToken, updateFirst isPending
      (fun u => { u with verificationToken := some (rt.sha256Hex verificationToken) }) users)
  else (none, users)

/-- The update of `saveOtp`. -/
def storeOtp (otpHash : JsString) (now : Int) (u : User) : User :=
  { u with otpHash := some otpHash, otpExpiry := some (now + OTP_EXPIRY_MS),
           otpAttempts := 0 }

/-- `saveOtp`, the database operation of `issueOtp`. -/
def saveOtp (users : List User) (userId : JsString) (issue : OtpIssue) : List User :=
  updateFirst (fun u => u.id == userId)
    (storeOtp (rt.bcryptHash issue.draw.text issue.salt) issue.now) users

end

/-- The guards of `verifyOtp` on the copy of the user that the request read; the
hash to compare with when they pass. -/
def checkOtpState (user : User) (now : Int) : Except JsError JsString :=
  if user.otpAttempts ≥ MAX_OTP_ATTEMPTS then
    .error (.app "Too many failed attempts. Please request a new OTP." 429)
  else
    match user.otpHash, user.otpExpiry with
    | some hash, some expiry =>
        if hash = [] ∨ expiry < now then
          .error (.app "OTP has expired. Please request a new one." 400)
        else .ok hash
    | _, _ => .error (.app "OTP has expired. Please request a new one." 400)

/-- The update of a miss: `$inc: { otpAttempts: 1 }`. -/
def addMiss (u : User) : User :=
  { u with otpAttempts := u.otpAttempts + 1 }

/-- The update of a match: `$unset` the code, `$set: { otpAttempts: 0 }`. -/
def clearOtp (u : User) : User :=
  { u with otpHash := none, otpExpiry := none, otpAttempts := 0 }

/-- `User.findOneAndUpdate({ id }, update)`. -/
def updateUserById (users : List User) (userId : JsString) (update : User → User) :
    List User :=
  updateFirst (fun u => u.id == userId) update users

/-- `verifyOtp` of the service on the copy `user`: the users after it, and the
error it throws if it does. -/
def verifyOtpService (rt : Runtime) (users : List User) (user : User) (otp : Field)
    (now : Int) : Except JsError Unit × List User :=
  match checkOtpState user now with
  | .error e => (.error e, users)
  | .ok hash =>
      match otp.asString with
      | .error e => (.error e, users)
      | .ok guess =>
          if rt.bcryptCompare guess hash then
            (.ok (), updateUserById users user.id clearOtp)
          else (.error (.app "Invalid OTP." 400), updateUserById users user.id addMiss)

/-- Guards that pass return the stored hash of an unlocked user. -/
theorem checkOtpState_ok {user : User} {now : Int} {hash : JsString}
    (h : checkOtpState user now = .ok hash) :
    user.otpAttempts < MAX_OTP_ATTEMPTS ∧ user.otpHash = some hash := by
  unfold checkOtpState at h
  split at h
  · cases h
  · rename_i hattempts
    split at h
    · rename_i stored expiry hhash hexpiry
      split at h
      · cases h
      · cases h
        exact ⟨by omega, hhash⟩
    · cases h

/-! ## Sample values -/

/-- Stand-ins for the libraries: the hash of a text shows it after the salt. -/
def sampleRuntime : Runtime where
  toLowerCase := asciiLower
  bcryptHash text salt := salt ++ js "$" ++ text
  bcryptCompare text hash := (js "$" ++ text).isSuffixOf hash
  sha256Hex text := js "sha256:" ++ text

/-- A code drawn at time `now`. -/
def sampleIssue (now : Int) : OtpIssue :=
  ⟨⟨123456, by decide, by decide⟩, js "s", now⟩

end Server
end InfinityLabs
