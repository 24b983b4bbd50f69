import InfinityLabs.Lib.Runs
import InfinityLabs.Server.UserService

/-!
# The auth endpoints

`controllers/auth.controller.js`: each request is handled as one step on the
user documents.  Besides the response a handler reports what it did for whom
(`AuthEvent`): an account was created, a password check passed, a code was
issued, a JWT was issued.  The history of a run is the list of these reports,
the oldest first.
-/

namespace InfinityLabs
namespace Server

open Lib

/-- What a request did, by the `id` of the user.  A code is told by the hash that
is stored for it, a JWT by the hash that the accepted guess was compared with. -/
inductive AuthEvent where
  | accountCreated (id : JsString)
  | passwordPassed (id : JsString)
  | otpIssued (id otpHash : JsString)
  | jwtIssued (id otpHash : JsString)
  deriving DecidableEq, Repr

/-- The payload that `createToken` signs. -/
structure Jwt where
  id : JsString
  email : JsString
  deriving DecidableEq, Repr

/-- The `user` object of a successful `verifyOtp`. -/
structure SessionUser where
  id : JsString
  firstName : JsString
  lastName : JsString
  email : JsString
  deriving DecidableEq, Repr

/-- What a handler sends, or passes to `next`. -/
inductive Response where
  | created (message : String)
  | ok (message : String)
  | otpRequired
  | session (user : SessionUser) (token : Jwt)
  | page (statusCode : Nat) (success : Bool) (message : String)
  | next (error : JsError)
  deriving DecidableEq, Repr

/-- The outcome of one request. -/
structure Handled where
  response : Response
  users : List User
  events : List AuthEvent

/-- A request that fails and changes nothing. -/
def Handled.fail (users : List User) (error : JsError) : Handled :=
  { response := .next error, users := users, events := [] }

/-- `utils/jwt.util.js`, `createToken`. -/
def createToken (user : User) : Except JsError Jwt :=
  if user.id = [] ∨ user.email = [] then
    .error (.app "User must have id and email to create token" 400)
  else .ok ⟨user.id, user.email⟩

/-- The response to every accepted signup, and to a duplicate one. -/
def signupAccepted : Response :=
  .created "Please check your email to verify your account."

section

variable (rt : Runtime)

/-- `signup`. -/
def signup (users : List User) (body : SignupBody) (draw : SignupDraw) : Handled :=
  if body.firstName.isFalsy || body.lastName.isFalsy || body.email.isFalsy ||
      body.phone.isFalsy || body.password.isFalsy then
    .fail users (.app "All fields are required" 400)
  else
    match body.password.asString with
    | .error e => .fail users e
    | .ok password =>
        if !PASSWORD_REGEX password then
          .fail users (.app
            "Password must be at least 8 characters with uppercase, lowercase, and number" 400)
        else
          match createUser rt users body draw with
          | .ok (user, _, users') => ⟨signupAccepted, users', [.accountCreated user.id]⟩
          | .error .duplicateKey => ⟨signupAccepted, users, []⟩
          | .error e => .fail users e

/-- `verifyEmail`. -/
def verifyEmail (users : List User) (token : Field) : Handled :=
  if token.isFalsy then
    ⟨.page 400 false "Verification token is missing.", users, []⟩
  else
    match findAndVerifyUserByToken rt users token with
    | .error _ =>
        ⟨.page 500 false "Something went wrong. Please try again later.", users, []⟩
    | .ok (none, users') =>
        ⟨.page 400 false "Invalid or expired verification token.", users', []⟩
    | .ok (some _, users') => ⟨.page 200 true "", users', []⟩

/-- `resendVerification`. -/
def resendVerification (users : List User) (email : Field) (verificationToken : JsString) :
    Handled :=
  if email.isFalsy then .fail users (.app "Email is required" 400)
  else
    match email.asString with
    | .error e => .fail users e
    | .ok address =>
        ⟨.ok "If this email exists and is not verified, a new verification link has been sent.",
          (regenerateVerificationToken rt users address verificationToken).2, []⟩

/-- `issueOtp` for a user: the users after it and its report. -/
def issueOtp (users : List User) (user : User) (issue : OtpIssue) :
    List User × AuthEvent :=
  (saveOtp rt users user.id issue,
    .otpIssued user.id (rt.bcryptHash issue.draw.text issue.salt))

/-- `login`, step 1 of 2. -/
def login (users : List User) (email password : Field) (issue : OtpIssue) : Handled :=
  if email.isFalsy || password.isFalsy then
    .fail users (.app "Email and password are required" 400)
  else
    match email.asString with
    | .error e => .fail users e
    | .ok address =>
        match findUserByEmail rt users address with
        | none => .fail users (.app "Invalid credentials" 401)
        | some user =>
            if user.status ≠ .ACTIVE then .fail users (.app "Invalid credentials" 401)
            else
              match password.asString with
              | .error e => .fail users e
              | .ok given =>
                  if rt.bcryptCompare given user.password then
                    let (users', issued) := issueOtp rt users user issue
                    ⟨.otpRequired, users', [.passwordPassed user.id, issued]⟩
                  else .fail users (.app "Invalid credentials" 401)

/-- `verifyOtp`, step 2 of 2. -/
def verifyOtp (users : List User) (email otp : Field) (now : Int) : Handled :=
  if email.isFalsy || otp.isFalsy then
    .fail users (.app "Email and OTP are required" 400)
  else
    match email.asString with
    | .error e => .fail users e
    | .ok address =>
        match findUserByEmail rt users address with
        | none => .fail users (.app "Invalid request" 400)
        | some user =>
            if user.status ≠ .ACTIVE then .fail users (.app "Invalid request" 400)
            else
              match verifyOtpService rt users user otp now with
              | (.error e, users') => .fail users' e
              | (.ok (), users') =>
                  match createToken user with
                  | .error e => .fail users' e
                  | .ok token =>
                      ⟨.session ⟨user.id, user.firstName, user.lastName, user.email⟩ token,
                        users', [.jwtIssued user.id (user.otpHash.getD [])]⟩

/-- `resendOtp`. -/
def resendOtp (users : List User) (email : Field) (issue : OtpIssue) : Handled :=
  let sent : Response := .ok "If the account exists, a new OTP has been sent."
  if email.isFalsy then .fail users (.app "Email is required" 400)
  else
    match email.asString with
    | .error e => .fail users e
    | .ok address =>
        match findUserByEmail rt users address with
        | none => ⟨sent, users, []⟩
        | some user =>
            if user.status = .ACTIVE then
              let (users', issued) := issueOtp rt users user issue
              ⟨sent, users', [issued]⟩
            else ⟨sent, users, []⟩

end

/-! ## Runs of the endpoints -/

/-- A request with what its handling draws. -/
inductive AuthRequest where
  | signup (body : SignupBody) (draw : SignupDraw)
  | verifyEmail (token : Field)
  | resendVerification (email : Field) (verificationToken : JsString)
  | login (email password : Field) (issue : OtpIssue)
  | verifyOtp (email otp : Field) (now : Int)
  | resendOtp (email : Field) (issue : OtpIssue)

/-- The stored users and what the requests so far did. -/
structure AuthState where
  users : List User
  history : List AuthEvent

/-- Handle one request. -/
def handle (rt : Runtime) (users : List User) : AuthRequest → Handled
  | .signup body draw => signup rt users body draw
  | .verifyEmail token => verifyEmail rt users token
  | .resendVerification email token => resendVerification rt users email token
  | .login email password issue => login rt users email password issue
  | .verifyOtp email otp now => verifyOtp rt users email otp now
  | .resendOtp email issue => resendOtp rt users email issue

/-- The endpoints from an empty collection of users. -/
def authMachine (rt : Runtime) : Machine AuthState AuthRequest where
  start s := s = ⟨[], []⟩
  step s request :=
    let handled := handle rt s.users request
    some ⟨handled.users, s.history ++ handled.events⟩

/-! ## What a request can do -/

/-- Found users are stored. -/
theorem findUserByEmail_mem {rt : Runtime} {users : List User} {email : JsString}
    {user : User} (h : findUserByEmail rt users email = some user) : user ∈ users :=
  List.mem_of_find?_eq_some h

/-- An update of one user may move its code away, never put one there. -/
def KeepsOtp (users users' : List User) : Prop :=
  users'.map User.id = users.map User.id ∧
    ∀ u ∈ users', ∀ hash, u.otpHash = some hash →
      ∃ u₀ ∈ users, u₀.id = u.id ∧ u₀.otpHash = some hash

theorem keepsOtp_refl (users : List User) : KeepsOtp users users :=
  ⟨rfl, fun u hu _ hhash => ⟨u, hu, rfl, hhash⟩⟩

/-- An update that keeps ids and sets no code keeps codes. -/
theorem keepsOtp_updateFirst {users : List User} {p : User → Bool}
    {update : User → User} (hid : ∀ u, (update u).id = u.id)
    (hotp : ∀ u hash, (update u).otpHash = some hash → u.otpHash = some hash) :
    KeepsOtp users (updateFirst p update users) := by
  refine ⟨map_updateFirst p hid users, fun u hu hash hhash => ?_⟩
  rcases mem_updateFirst hu with hold | ⟨u₀, hu₀, -, rfl⟩
  · exact ⟨u, hold, rfl, hhash⟩
  · exact ⟨u₀, hu₀, (hid u₀).symm, hotp u₀ hash hhash⟩

/-- What one request does to the users and to the history. -/
inductive Effect (rt : Runtime) (users : List User) :
    AuthRequest → List User → List AuthEvent → Prop
  | quiet {request : AuthRequest} {users' : List User}
      (hkeeps : KeepsOtp users users') : Effect rt users request users' []
  | created {request : AuthRequest} {user : User}
      (hfresh : user.id ∉ users.map User.id) (hotp : user.otpHash = none) :
      Effect rt users request (users ++ [user]) [.accountCreated user.id]
  | loggedIn {request : AuthRequest} {user : User} (hmem : user ∈ users)
      (issue : OtpIssue) :
      Effect rt users request (saveOtp rt users user.id issue)
        [.passwordPassed user.id,
          .otpIssued user.id (rt.bcryptHash issue.draw.text issue.salt)]
  | resent {email : JsString} {user : User} (issue : OtpIssue)
      (hfound : findUserByEmail rt users email = some user)
      (hactive : user.status = .ACTIVE) :
      Effect rt users (.resendOtp (.text email) issue) (saveOtp rt users user.id issue)
        [.otpIssued user.id (rt.bcryptHash issue.draw.text issue.salt)]
  | verified {request : AuthRequest} {user : User} {hash : JsString}
      (hmem : user ∈ users) (hotp : user.otpHash = some hash) :
      Effect rt users request (updateUserById users user.id clearOtp)
        [.jwtIssued user.id hash]

theorem addMiss_keepsOtp (users : List User) (id : JsString) :
    KeepsOtp users (updateUserById users id addMiss) :=
  keepsOtp_updateFirst (fun _ => rfl) fun _ _ h => h

theorem clearOtp_keepsOtp (users : List User) (id : JsString) :
    KeepsOtp users (updateUserById users id clearOtp) :=
  keepsOtp_updateFirst (fun _ => rfl) fun _ _ h => by cases h

/-- A created user is new, has no code yet, and stands last. -/
theorem createUser_ok {rt : Runtime} {users users' : List User} {body : SignupBody}
    {draw : SignupDraw} {user : User} {token : JsString}
    (h : createUser rt users body draw = .ok (user, token, users')) :
    user.id ∉ users.map User.id ∧ user.otpHash = none ∧ users' = users ++ [user] := by
  unfold createUser at h
  cases hpassword : body.password.asString with
  | error e => simp [hpassword, bind, Except.bind] at h
  | ok password =>
  cases hemail : body.email.asString with
  | error e => simp [hpassword, hemail, bind, Except.bind] at h
  | ok email =>
  cases hfirst : body.firstName.castString with
  | error e => simp [hpassword, hemail, hfirst, bind, Except.bind] at h
  | ok firstName =>
  cases hlast : body.lastName.castString with
  | error e => simp [hpassword, hemail, hfirst, hlast, bind, Except.bind] at h
  | ok lastName =>
  cases hphone : body.phone.castString with
  | error e => simp [hpassword, hemail, hfirst, hlast, hphone, bind, Except.bind] at h
  | ok phone =>
  simp only [hpassword, hemail, hfirst, hlast, hphone, bind, Except.bind] at h
  split at h
  · split at h
    · cases h
    · rename_i hunique
      cases h
      refine ⟨?_, rfl, rfl⟩
      intro hmem
      obtain ⟨u, hu, hid⟩ := List.mem_map.mp hmem
      refine hunique (List.any_eq_true.mpr ⟨u, hu, ?_⟩)
      simp only at hid
      simp [hid]
  · cases h

/-- The effect of a handler on a request. -/
def Handled.HasEffect (rt : Runtime) (users : List User) (request : AuthRequest)
    (handled : Handled) : Prop :=
  Effect rt users request handled.users handled.events

/-- A request that fails has no effect. -/
theorem hasEffect_fail (rt : Runtime) (users : List User) (request : AuthRequest)
    (error : JsError) : (Handled.fail users error).HasEffect rt users request :=
  .quiet (keepsOtp_refl users)

theorem signup_effect (rt : Runtime) (users : List User) (body : SignupBody)
    (draw : SignupDraw) :
    (signup rt users body draw).HasEffect rt users (.signup body draw) := by
  unfold signup
  split
  · exact hasEffect_fail _ _ _ _
  · split
    · exact hasEffect_fail _ _ _ _
    · split
      · exact hasEffect_fail _ _ _ _
      · split
        · rename_i user token users' hcreate
          obtain ⟨hfresh, hotp, rfl⟩ := createUser_ok hcreate
          exact .created hfresh hotp
        · -- a duplicate address is answered like a new one, and changes nothing
          exact .quiet (keepsOtp_refl users)
        · exact hasEffect_fail _ _ _ _

theorem verifyEmail_effect (rt : Runtime) (users : List User) (token : Field) :
    (verifyEmail rt users token).HasEffect rt users (.verifyEmail token) := by
  unfold verifyEmail
  split
  · exact .quiet (keepsOtp_refl users)
  · unfold findAndVerifyUserByToken
    cases hhash : hashToken rt token with
    | error e => exact .quiet (keepsOtp_refl users)
    | ok hash =>
        have hkeeps : KeepsOtp users (updateFirst (awaitsToken hash) activate users) :=
          keepsOtp_updateFirst (fun _ => rfl) fun _ _ h => h
        cases hfound : users.find? (awaitsToken hash) with
        | none =>
            simp only [hfound, Option.map_none]
            exact .quiet hkeeps
        | some user =>
            simp only [hfound, Option.map_some]
            exact .quiet hkeeps

theorem resendVerification_effect (rt : Runtime) (users : List User) (email : Field)
    (token : JsString) :
    (resendVerification rt users email token).HasEffect rt users
      (.resendVerification email token) := by
  unfold resendVerification
  split
  · exact hasEffect_fail _ _ _ _
  · split
    · exact hasEffect_fail _ _ _ _
    · rename_i address haddress
      refine .quiet ?_
      unfold regenerateVerificationToken
      dsimp only
      split
      · exact keepsOtp_updateFirst (fun _ => rfl) fun _ _ h => h
      · exact keepsOtp_refl users

theorem login_effect (rt : Runtime) (users : List User) (email password : Field)
    (issue : OtpIssue) :
    (login rt users email password issue).HasEffect rt users
      (.login email password issue) := by
  unfold login
  split
  · exact hasEffect_fail _ _ _ _
  · split
    · exact hasEffect_fail _ _ _ _
    · split
      · exact hasEffect_fail _ _ _ _
      · rename_i user hfound
        split
        · exact hasEffect_fail _ _ _ _
        · split
          · exact hasEffect_fail _ _ _ _
          · split
            · exact .loggedIn (findUserByEmail_mem hfound) issue
            · exact hasEffect_fail _ _ _ _

theorem verifyOtp_effect (rt : Runtime) (users : List User) (email otp : Field)
    (now : Int) :
    (verifyOtp rt users email otp now).HasEffect rt users (.verifyOtp email otp now) := by
  unfold verifyOtp
  split
  · exact hasEffect_fail _ _ _ _
  · split
    · exact hasEffect_fail _ _ _ _
    · split
      · exact hasEffect_fail _ _ _ _
      · rename_i user hfound
        split
        · exact hasEffect_fail _ _ _ _
        · unfold verifyOtpService
          cases hstate : checkOtpState user now with
          | error e => exact hasEffect_fail _ _ _ e
          | ok hash =>
              cases hotp : otp.asString with
              | error e => exact hasEffect_fail _ _ _ e
              | ok guess =>
                  by_cases hmatch : rt.bcryptCompare guess hash = true
                  · simp only [hmatch, if_true]
                    have hstored := (checkOtpState_ok hstate).2
                    -- the code is spent before the token is made
                    cases htoken : createToken user with
                    | error e => exact .quiet (clearOtp_keepsOtp users user.id)
                    | ok token =>
                        simp only [hstored, Option.getD_some]
                        exact .verified (findUserByEmail_mem hfound) hstored
                  · simp only [hmatch]
                    exact .quiet (addMiss_keepsOtp users user.id)

theorem resendOtp_effect (rt : Runtime) (users : List User) (email : Field)
    (issue : OtpIssue) :
    (resendOtp rt users email issue).HasEffect rt users (.resendOtp email issue) := by
  unfold resendOtp
  dsimp only
  split
  · exact hasEffect_fail _ _ _ _
  · cases email with
    | absent => exact hasEffect_fail _ _ _ _
    | other => exact hasEffect_fail _ _ _ _
    | text address =>
        simp only [Field.asString]
        split
        · exact .quiet (keepsOtp_refl users)
        · rename_i user hfound
          by_cases hactive : user.status = .ACTIVE
          · simp only [hactive, if_true]
            exact .resent issue hfound hactive
          · simp only [hactive, if_false]
            exact .quiet (keepsOtp_refl users)

/-- **Every request has one of the effects.** -/
theorem handle_effect (rt : Runtime) (users : List User) (request : AuthRequest) :
    (handle rt users request).HasEffect rt users request := by
  cases request with
  | signup body draw => exact signup_effect rt users body draw
  | verifyEmail token => exact verifyEmail_effect rt users token
  | resendVerification email token => exact resendVerification_effect rt users email token
  | login email password issue => exact login_effect rt users email password issue
  | verifyOtp email otp now => exact verifyOtp_effect rt users email otp now
  | resendOtp email issue => exact resendOtp_effect rt users email issue

end Server
end InfinityLabs
