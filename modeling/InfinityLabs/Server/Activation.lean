import InfinityLabs.Server.SecondFactor

/-!
# From the e-mailed token to the session

An account is opened `PENDING`, with the hash of a token that only its e-mail
tells.  Every later step of the login asks for an `ACTIVE` account.  Along any
run of the endpoints this reads: before a password check passes, a code is
issued or a JWT is signed for a user, `verifyEmail` got the token mailed to
that user last, once and for all.  `authenticate` then opens those accounts
and no others.

The history of a run is the list of its requests, each with the users it was
handled on, the newest first.
-/

namespace InfinityLabs
namespace Server

open Lib

/-- A request with the users it was handled on. -/
abbrev AuthEntry := List User × AuthRequest

/-- The pending user whose token `regenerateVerificationToken` replaces. -/
def pendingAt (rt : Runtime) (email : JsString) (u : User) : Bool :=
  u.email == lookupAddress rt email && u.status == .PENDING

/-- The user that a request mails a verification token to, and the stored hash of
that token. -/
def mailedToken (rt : Runtime) : AuthEntry → Option (JsString × JsString)
  | (users, .signup body draw) =>
      match (signup rt users body draw).events with
      | [.accountCreated id] => some (id, rt.sha256Hex draw.verificationToken)
      | _ => none
  | (users, .resendVerification (.text email) token) =>
      if email = [] then none
      else (users.find? (pendingAt rt email)).map fun u => (u.id, rt.sha256Hex token)
  | _ => none

/-- The user that a request verifies. -/
def verifiedUser (rt : Runtime) : AuthEntry → Option JsString
  | (users, .verifyEmail (.text token)) =>
      if token = [] then none
      else (users.find? (awaitsToken (rt.sha256Hex token))).map User.id
  | _ => none

/-- The hash of the token that the history mailed to the user last. -/
def lastMailed (rt : Runtime) (id : JsString) (history : List AuthEntry) : Option JsString :=
  history.findSome? fun entry =>
    (mailedToken rt entry).bind fun mail => if mail.1 = id then some mail.2 else none

/-- The request neither mails a token to the user nor verifies the user. -/
def LeavesAlone (rt : Runtime) (id : JsString) (entry : AuthEntry) : Prop :=
  (∀ hash, mailedToken rt entry ≠ some (id, hash)) ∧ verifiedUser rt entry ≠ some id

/-- One request of the history verified the user, with the token mailed last; none did
before, and since then the user is left alone. -/
def VerifiedOnce (rt : Runtime) (id : JsString) (history : List AuthEntry) : Prop :=
  ∃ later users token earlier,
    history = later ++ (users, .verifyEmail (.text token)) :: earlier ∧
      verifiedUser rt (users, .verifyEmail (.text token)) = some id ∧
      lastMailed rt id earlier = some (rt.sha256Hex token) ∧
      (∀ entry ∈ later, LeavesAlone rt id entry) ∧
      ∀ entry ∈ earlier, verifiedUser rt entry ≠ some id

/-- The endpoints with the requests they handled. -/
def recordedAuth (rt : Runtime) : Machine (AuthState × List AuthEntry) AuthRequest :=
  (authMachine rt).recording (fun _ => []) fun s request history =>
    (s.users, request) :: history

/-! ## What a request does to the accounts -/

/-- What an account is: its user, its status and its token. -/
def account (u : User) : JsString × UserStatus × Option JsString :=
  (u.id, u.status, u.verificationToken)

/-- The accounts stay, and what the handler reports it did for an active user. -/
def Handled.ServesActive (users : List User) (handled : Handled) : Prop :=
  handled.users.map account = users.map account ∧
    ∀ event ∈ handled.events, ∃ u ∈ users, u.id = event.user ∧ u.status = .ACTIVE

/-- What one request does to the accounts. -/
inductive AccountEffect (rt : Runtime) (users : List User) (request : AuthRequest)
    (handled : Handled) : Prop
  | serves (hserves : handled.ServesActive users)
      (hmailed : mailedToken rt (users, request) = none)
      (hverified : verifiedUser rt (users, request) = none)
  | opened (user : User) (hash : JsString) (hfresh : user.id ∉ users.map User.id)
      (husers : handled.users = users ++ [user])
      (haccount : account user = (user.id, .PENDING, some hash))
      (hevents : handled.events = [.accountCreated user.id])
      (hmailed : mailedToken rt (users, request) = some (user.id, hash))
      (hverified : verifiedUser rt (users, request) = none)
  | mailed (user : User) (hash : JsString) (hmem : user ∈ users)
      (hpending : user.status = .PENDING)
      (husers : ∀ y ∈ handled.users, (y ∈ users ∧ y.id ≠ user.id) ∨
        account y = (user.id, .PENDING, some hash))
      (hids : handled.users.map User.id = users.map User.id) (hevents : handled.events = [])
      (hmailed : mailedToken rt (users, request) = some (user.id, hash))
      (hverified : verifiedUser rt (users, request) = none)
  | verified (user : User) (token : JsString) (hmem : user ∈ users)
      (hpending : account user = (user.id, .PENDING, some (rt.sha256Hex token)))
      (hrequest : request = .verifyEmail (.text token))
      (husers : ∀ y ∈ handled.users, (y ∈ users ∧ y.id ≠ user.id) ∨
        y.id = user.id ∧ y.status = .ACTIVE)
      (hids : handled.users.map User.id = users.map User.id) (hevents : handled.events = [])
      (hmailed : mailedToken rt (users, request) = none)
      (hverified : verifiedUser rt (users, request) = some user.id)

section

variable {rt : Runtime} {users : List User}

/-- A request that fails serves nobody. -/
theorem servesActive_fail (users : List User) (error : JsError) :
    (Handled.fail users error).ServesActive users :=
  ⟨rfl, fun _ hevent => by cases hevent⟩

/-- An update that keeps the accounts and reports nothing serves nobody. -/
theorem servesActive_update {response : Response} {p : User → Bool} {update : User → User}
    (hupdate : ∀ u, account (update u) = account u) {events : List AuthEvent}
    (hevents : ∀ event ∈ events, ∃ u ∈ users, u.id = event.user ∧ u.status = .ACTIVE) :
    Handled.ServesActive users ⟨response, updateFirst p update users, events⟩ :=
  ⟨map_updateFirst p hupdate users, hevents⟩

theorem login_servesActive (email password : Field) (issue : OtpIssue) :
    (login rt users email password issue).ServesActive users := by
  unfold login
  split
  · exact servesActive_fail _ _
  · split
    · exact servesActive_fail _ _
    · split
      · exact servesActive_fail _ _
      · rename_i user hfound
        split
        · exact servesActive_fail _ _
        · rename_i hstatus
          split
          · exact servesActive_fail _ _
          · split
            · dsimp only [issueOtp, saveOtp]
              refine servesActive_update (fun _ => by rfl) fun event hevent => ?_
              -- both reports name the user that was found
              refine ⟨user, findUserByEmail_mem hfound, ?_, not_not.mp hstatus⟩
              rcases List.mem_cons.mp hevent with rfl | hevent
              · rfl
              · rw [List.mem_singleton.mp hevent]
                rfl
            · exact servesActive_fail _ _

theorem verifyOtp_servesActive (email otp : Field) (now : Int) :
    (verifyOtp rt users email otp now).ServesActive users := by
  unfold verifyOtp
  split
  · exact servesActive_fail _ _
  · split
    · exact servesActive_fail _ _
    · split
      · exact servesActive_fail _ _
      · rename_i user hfound
        split
        · exact servesActive_fail _ _
        · rename_i hstatus
          unfold verifyOtpService
          cases hstate : checkOtpState user now with
          | error e => exact servesActive_fail _ e
          | ok hash =>
              cases hotp : otp.asString with
              | error e => exact servesActive_fail _ e
              | ok guess =>
                  by_cases hmatch : rt.bcryptCompare guess hash = true
                  · simp only [hmatch, if_true]
                    cases htoken : createToken user with
                    | error e =>
                        dsimp only [Handled.fail, updateUserById]
                        exact servesActive_update (fun _ => by rfl) (by simp)
                    | ok token =>
                        dsimp only [updateUserById]
                        refine servesActive_update (fun _ => by rfl) fun event hevent => ?_
                        rw [List.mem_singleton.mp hevent]
                        exact ⟨user, findUserByEmail_mem hfound, rfl, not_not.mp hstatus⟩
                  · simp only [hmatch]
                    dsimp only [Handled.fail, updateUserById]
                    exact servesActive_update (fun _ => by rfl) (by simp)

theorem resendOtp_servesActive (email : Field) (issue : OtpIssue) :
    (resendOtp rt users email issue).ServesActive users := by
  unfold resendOtp
  dsimp only
  split
  · exact servesActive_fail _ _
  · split
    · exact servesActive_fail _ _
    · split
      · exact ⟨rfl, by simp⟩
      · rename_i user hfound
        split
        · rename_i hstatus
          dsimp only [issueOtp, saveOtp]
          refine servesActive_update (fun _ => by rfl) fun event hevent => ?_
          rw [List.mem_singleton.mp hevent]
          exact ⟨user, findUserByEmail_mem hfound, rfl, hstatus⟩
        · exact ⟨rfl, by simp⟩

/-- A created user awaits the token that was drawn for it. -/
theorem createUser_account {users' : List User} {body : SignupBody} {draw : SignupDraw}
    {user : User} {token : JsString}
    (h : createUser rt users body draw = .ok (user, token, users')) :
    account user = (user.id, .PENDING, some (rt.sha256Hex draw.verificationToken)) := by
  simp only [createUser, bind, Except.bind] at h
  -- every earlier exit throws
  repeat' split at h
  all_goals cases h
  rfl

/-- `signup` changes and reports nothing, or it creates a user. -/
theorem signup_cases (rt : Runtime) (users : List User) (body : SignupBody)
    (draw : SignupDraw) :
    ((signup rt users body draw).users = users ∧ (signup rt users body draw).events = []) ∨
      ∃ user token, createUser rt users body draw =
          .ok (user, token, (signup rt users body draw).users) ∧
        (signup rt users body draw).events = [.accountCreated user.id] := by
  unfold signup
  split
  · exact .inl ⟨rfl, rfl⟩
  · split
    · exact .inl ⟨rfl, rfl⟩
    · split
      · exact .inl ⟨rfl, rfl⟩
      · split
        · rename_i user token users' hcreate
          exact .inr ⟨user, token, hcreate, rfl⟩
        · exact .inl ⟨rfl, rfl⟩
        · exact .inl ⟨rfl, rfl⟩

theorem signup_accountEffect (body : SignupBody) (draw : SignupDraw) :
    AccountEffect rt users (.signup body draw) (signup rt users body draw) := by
  rcases signup_cases rt users body draw with ⟨husers, hevents⟩ | ⟨user, token, hcreate, hevents⟩
  · exact .serves ⟨by rw [husers], by simp [hevents]⟩ (by simp [mailedToken, hevents]) rfl
  · obtain ⟨hfresh, -, husers⟩ := createUser_ok hcreate
    exact .opened user _ hfresh husers (createUser_account hcreate) hevents
      (by simp [mailedToken, hevents]) rfl

theorem verifyEmail_accountEffect (hnodup : (users.map User.id).Nodup) (token : Field) :
    AccountEffect rt users (.verifyEmail token) (verifyEmail rt users token) := by
  cases token with
  | absent => exact .serves ⟨rfl, by simp [verifyEmail, Field.isFalsy]⟩ rfl rfl
  | other =>
      refine .serves ⟨?_, ?_⟩ rfl rfl
      all_goals simp [verifyEmail, Field.isFalsy, findAndVerifyUserByToken, hashToken]
  | text token =>
      by_cases hempty : token = []
      · subst hempty
        exact .serves ⟨rfl, by simp [verifyEmail, Field.isFalsy]⟩ rfl rfl
      · cases hfound : users.find? (awaitsToken (rt.sha256Hex token)) with
        | none =>
            have hverify : verifyEmail rt users (.text token) =
                ⟨.page 400 false "Invalid or expired verification token.", users, []⟩ := by
              simp [verifyEmail, Field.isFalsy, hempty, findAndVerifyUserByToken, hashToken,
                hfound, updateFirst_of_find?_eq_none hfound]
            rw [hverify]
            exact .serves ⟨rfl, by simp⟩ rfl (by simp [verifiedUser, hfound])
        | some user =>
            have hverify : verifyEmail rt users (.text token) =
                ⟨.page 200 true "", updateFirst (awaitsToken (rt.sha256Hex token)) activate users,
                  []⟩ := by
              simp [verifyEmail, Field.isFalsy, hempty, findAndVerifyUserByToken, hashToken,
                hfound]
            rw [hverify]
            have hawaits := List.find?_some hfound
            rw [awaitsToken, Bool.and_eq_true, beq_iff_eq, beq_iff_eq] at hawaits
            refine .verified user token (List.mem_of_find?_eq_some hfound) ?_ rfl
              (fun y hy => ?_) (map_updateFirst _ (fun _ => by rfl) users) rfl rfl
              (by simp [verifiedUser, hempty, hfound])
            · rw [account, hawaits.1, hawaits.2]
            · rcases mem_updateFirst_find? hnodup hfound hy with hold | rfl
              · exact .inl hold
              · exact .inr ⟨rfl, rfl⟩

theorem resendVerification_accountEffect (hnodup : (users.map User.id).Nodup) (email : Field)
    (token : JsString) :
    AccountEffect rt users (.resendVerification email token)
      (resendVerification rt users email token) := by
  cases email with
  | absent => exact .serves (servesActive_fail _ _) rfl rfl
  | other => exact .serves (servesActive_fail _ _) rfl rfl
  | text email =>
      by_cases hempty : email = []
      · subst hempty
        exact .serves (servesActive_fail _ _) rfl rfl
      · have hresend : (resendVerification rt users (.text email) token).users =
              (if users.any (pendingAt rt email) then
                updateFirst (pendingAt rt email)
                  (fun u => { u with verificationToken := some (rt.sha256Hex token) }) users
              else users) ∧
            (resendVerification rt users (.text email) token).events = [] := by
          unfold resendVerification regenerateVerificationToken
          simp only [Field.isFalsy, Field.asString, beq_iff_eq, hempty, if_false]
          refine ⟨?_, trivial⟩
          change (if users.any (pendingAt rt email) = true then _ else _ : _ × _).2 = _
          split
          · rfl
          · rfl
        obtain ⟨husers, hevents⟩ := hresend
        cases hfound : users.find? (pendingAt rt email) with
        | none =>
            have hany : users.any (pendingAt rt email) = false := by
              rw [List.any_eq_false]
              exact fun u hu => List.find?_eq_none.mp hfound u hu
            rw [hany, if_neg Bool.false_ne_true] at husers
            exact .serves ⟨by rw [husers], by simp [hevents]⟩
              (by simp [mailedToken, hempty, hfound]) rfl
        | some user =>
            have hmem := List.mem_of_find?_eq_some hfound
            have hpending := List.find?_some hfound
            have hany : users.any (pendingAt rt email) = true :=
              List.any_eq_true.mpr ⟨user, hmem, hpending⟩
            rw [hany, if_pos rfl] at husers
            rw [pendingAt, Bool.and_eq_true, beq_iff_eq, beq_iff_eq] at hpending
            refine .mailed user (rt.sha256Hex token) hmem hpending.2 (fun y hy => ?_) ?_ hevents
              (by simp [mailedToken, hempty, hfound]) rfl
            · rw [husers] at hy
              rcases mem_updateFirst_find? hnodup hfound hy with hold | rfl
              · exact .inl hold
              · exact .inr (by simp [account, hpending.2])
            · rw [husers]
              exact map_updateFirst _ (fun _ => by rfl) users

/-- **Every request has one of the effects** on the accounts. -/
theorem handle_accountEffect (hnodup : (users.map User.id).Nodup) (request : AuthRequest) :
    AccountEffect rt users request (handle rt users request) := by
  cases request with
  | signup body draw => exact signup_accountEffect body draw
  | verifyEmail token => exact verifyEmail_accountEffect hnodup token
  | resendVerification email token => exact resendVerification_accountEffect hnodup email token
  | login email password issue => exact .serves (login_servesActive email password issue) rfl rfl
  | verifyOtp email otp now => exact .serves (verifyOtp_servesActive email otp now) rfl rfl
  | resendOtp email issue => exact .serves (resendOtp_servesActive email issue) rfl rfl

end

/-! ## Reading a history -/

section

variable {rt : Runtime} {id : JsString} {entry : AuthEntry} {history : List AuthEntry}

/-- A request that mails nothing to the user keeps what was mailed last. -/
theorem lastMailed_cons_of_ne (h : ∀ hash, mailedToken rt entry ≠ some (id, hash)) :
    lastMailed rt id (entry :: history) = lastMailed rt id history := by
  have hskip : ((mailedToken rt entry).bind fun mail =>
      if mail.1 = id then some mail.2 else none) = none := by
    rw [Option.bind_eq_none_iff]
    rintro ⟨who, hash⟩ hmail
    rw [if_neg]
    rintro rfl
    exact h hash hmail
  simp only [lastMailed, List.findSome?_cons, hskip]

theorem lastMailed_cons_of_eq {hash : JsString} (h : mailedToken rt entry = some (id, hash)) :
    lastMailed rt id (entry :: history) = some hash := by
  simp [lastMailed, h]

/-- A request that mails at most to another user, and verifies at most another, leaves the
user alone. -/
theorem leavesAlone_of_ne (hmailed : ∀ who hash, mailedToken rt entry = some (who, hash) → id ≠ who)
    (hverified : ∀ who, verifiedUser rt entry = some who → id ≠ who) :
    LeavesAlone rt id entry :=
  ⟨fun hash h => hmailed id hash h rfl, fun h => hverified id h rfl⟩

/-- Being left alone keeps a verification. -/
theorem VerifiedOnce.cons (h : VerifiedOnce rt id history) (halone : LeavesAlone rt id entry) :
    VerifiedOnce rt id (entry :: history) := by
  obtain ⟨later, users, token, earlier, rfl, hverified, hlast, hlater, hearlier⟩ := h
  refine ⟨entry :: later, users, token, earlier, rfl, hverified, hlast, fun e he => ?_, hearlier⟩
  rcases List.mem_cons.mp he with rfl | he
  · exact halone
  · exact hlater e he

/-- A verified user occurs in the history. -/
theorem VerifiedOnce.exists_entry (h : VerifiedOnce rt id history) :
    ∃ e ∈ history, verifiedUser rt e = some id := by
  obtain ⟨later, users, token, earlier, rfl, hverified, -⟩ := h
  exact ⟨_, List.mem_append_right _ List.mem_cons_self, hverified⟩

end

/-! ## The invariant -/

/-- What the history says of a stored user. -/
structure Accounted (rt : Runtime) (history : List AuthEntry) (u : User) : Prop where
  pending : u.status = .PENDING → u.verificationToken = lastMailed rt u.id history ∧
    ∀ entry ∈ history, verifiedUser rt entry ≠ some u.id
  active : u.status = .ACTIVE → VerifiedOnce rt u.id history

/-- A step on behalf of an active user finds that user verified. -/
def ServesVerified (rt : Runtime) (entry : AuthEntry) (earlier : List AuthEntry) : Prop :=
  ∀ event ∈ (handle rt entry.1 entry.2).events, event ≠ .accountCreated event.user →
    VerifiedOnce rt event.user earlier

/-- The stored users have distinct ids, the history mentions no other user, and it accounts
for each of them and for each of its steps. -/
structure ActivationInv (rt : Runtime) (s : AuthState × List AuthEntry) : Prop where
  nodup : (s.1.users.map User.id).Nodup
  known : ∀ entry ∈ s.2, ∀ id, ¬ LeavesAlone rt id entry → id ∈ s.1.users.map User.id
  accounted : ∀ u ∈ s.1.users, Accounted rt s.2 u
  served : EachEntry (ServesVerified rt) s.2

section

variable {rt : Runtime} {history : List AuthEntry}

/-- Accounts that are the same are accounted for alike. -/
theorem Accounted.congr {u v : User} (h : Accounted rt history u)
    (haccount : account v = account u) : Accounted rt history v := by
  obtain ⟨hid, hstatus, htoken⟩ : v.id = u.id ∧ v.status = u.status ∧
      v.verificationToken = u.verificationToken := by simpa [account] using haccount
  refine ⟨fun hpending => ?_, fun hactive => ?_⟩
  · rw [htoken, hid]
    exact h.pending (hstatus ▸ hpending)
  · rw [hid]
    exact h.active (hstatus ▸ hactive)

/-- A user who is left alone stays accounted for. -/
theorem Accounted.cons {u : User} {entry : AuthEntry} (h : Accounted rt history u)
    (halone : LeavesAlone rt u.id entry) : Accounted rt (entry :: history) u := by
  refine ⟨fun hpending => ?_, fun hactive => (h.active hactive).cons halone⟩
  obtain ⟨htoken, hnever⟩ := h.pending hpending
  refine ⟨by rw [lastMailed_cons_of_ne halone.1, htoken], fun e he => ?_⟩
  rcases List.mem_cons.mp he with rfl | he
  · exact halone.2
  · exact hnever e he

/-- The user that a pending account is of was mailed its token last. -/
theorem Accounted.mailed {u : User} {entry : AuthEntry} {hash : JsString}
    (haccount : account u = (u.id, .PENDING, some hash))
    (hmailed : mailedToken rt entry = some (u.id, hash))
    (hnever : ∀ e ∈ entry :: history, verifiedUser rt e ≠ some u.id) :
    Accounted rt (entry :: history) u := by
  obtain ⟨hstatus, htoken⟩ : u.status = .PENDING ∧ u.verificationToken = some hash := by
    simpa [account] using haccount
  refine ⟨fun _ => ⟨by rw [lastMailed_cons_of_eq hmailed, htoken], hnever⟩, fun hactive => ?_⟩
  rw [hstatus] at hactive
  cases hactive

end

section

variable {rt : Runtime} {users : List User} {request : AuthRequest} {history : List AuthEntry}
  {events events' : List AuthEvent}

theorem ActivationInv.serves (h : ActivationInv rt (⟨users, events⟩, history))
    (hserves : (handle rt users request).ServesActive users)
    (hmailed : mailedToken rt (users, request) = none)
    (hverified : verifiedUser rt (users, request) = none) :
    ActivationInv rt (⟨(handle rt users request).users, events'⟩, (users, request) :: history) := by
  have halone : ∀ id, LeavesAlone rt id (users, request) := fun id =>
    leavesAlone_of_ne (by simp [hmailed]) (by simp [hverified])
  have hids : (handle rt users request).users.map User.id = users.map User.id := by
    simpa [account, Function.comp_def] using
      congrArg (List.map Prod.fst) hserves.1
  refine ⟨hids ▸ h.nodup, hids ▸ List.forall_mem_cons.mpr
    ⟨fun id hnot => absurd (halone id) hnot, h.known⟩, fun u hu => ?_,
    eachEntry_cons.mpr ⟨fun event hevent _ => ?_, h.served⟩⟩
  · have haccount : account u ∈ users.map account := by
      rw [← hserves.1]
      exact List.mem_map_of_mem hu
    obtain ⟨v, hv, hvu⟩ := List.mem_map.mp haccount
    exact ((h.accounted v hv).cons (halone v.id)).congr hvu.symm
  · obtain ⟨u, hu, hid, hactive⟩ := hserves.2 event hevent
    rw [← hid]
    exact (h.accounted u hu).active hactive

theorem ActivationInv.opened (h : ActivationInv rt (⟨users, events⟩, history)) {user : User}
    {hash : JsString} (hfresh : user.id ∉ users.map User.id)
    (husers : (handle rt users request).users = users ++ [user])
    (haccount : account user = (user.id, .PENDING, some hash))
    (hevents : (handle rt users request).events = [.accountCreated user.id])
    (hmailed : mailedToken rt (users, request) = some (user.id, hash))
    (hverified : verifiedUser rt (users, request) = none) :
    ActivationInv rt (⟨(handle rt users request).users, events'⟩, (users, request) :: history) := by
  have halone : ∀ id, id ≠ user.id → LeavesAlone rt id (users, request) := fun id hne =>
    leavesAlone_of_ne (by simp_all) (by simp [hverified])
  -- the history does not mention the new user
  have hnever : ∀ e ∈ (users, request) :: history, verifiedUser rt e ≠ some user.id := by
    refine List.forall_mem_cons.mpr ⟨by simp [hverified], fun e he hv => ?_⟩
    exact hfresh (h.known e he user.id fun halone => halone.2 hv)
  have hids : (handle rt users request).users.map User.id =
      users.map User.id ++ [user.id] := by
    rw [husers, List.map_append, List.map_singleton]
  refine ⟨?_, ?_, fun u hu => ?_, eachEntry_cons.mpr ⟨fun event hevent hne => ?_, h.served⟩⟩
  · dsimp only
    rw [hids, List.nodup_append_comm]
    exact List.nodup_cons.mpr ⟨hfresh, h.nodup⟩
  · dsimp only
    rw [hids]
    refine List.forall_mem_cons.mpr ⟨fun id hnot => ?_, fun e he id hnot =>
      List.mem_append_left _ (h.known e he id hnot)⟩
    refine List.mem_append_right _ (List.mem_singleton.mpr ?_)
    exact not_not.mp fun hne => hnot (halone id hne)
  · dsimp only at hu
    rw [husers] at hu
    rcases List.mem_append.mp hu with hold | hnew
    · refine (h.accounted u hold).cons (halone u.id fun hid => hfresh ?_)
      rw [← hid]
      exact List.mem_map_of_mem hold
    · rw [List.mem_singleton.mp hnew]
      exact Accounted.mailed haccount hmailed hnever
  · rw [hevents] at hevent
    rw [List.mem_singleton.mp hevent] at hne
    exact absurd rfl hne

theorem ActivationInv.mailed (h : ActivationInv rt (⟨users, events⟩, history)) {user : User}
    {hash : JsString} (hmem : user ∈ users) (hpending : user.status = .PENDING)
    (husers : ∀ y ∈ (handle rt users request).users, (y ∈ users ∧ y.id ≠ user.id) ∨
      account y = (user.id, .PENDING, some hash))
    (hids : (handle rt users request).users.map User.id = users.map User.id)
    (hevents : (handle rt users request).events = [])
    (hmailed : mailedToken rt (users, request) = some (user.id, hash))
    (hverified : verifiedUser rt (users, request) = none) :
    ActivationInv rt (⟨(handle rt users request).users, events'⟩, (users, request) :: history) := by
  have halone : ∀ id, id ≠ user.id → LeavesAlone rt id (users, request) := fun id hne =>
    leavesAlone_of_ne (by simp_all) (by simp [hverified])
  have hnever := ((h.accounted user hmem).pending hpending).2
  refine ⟨hids ▸ h.nodup, hids ▸ List.forall_mem_cons.mpr ⟨fun id hnot => ?_, h.known⟩,
    fun u hu => ?_, eachEntry_cons.mpr ⟨fun event hevent _ => ?_, h.served⟩⟩
  · rw [not_not.mp fun hne => hnot (halone id hne)]
    exact List.mem_map_of_mem hmem
  · rcases husers u hu with ⟨hold, hne⟩ | haccount
    · exact (h.accounted u hold).cons (halone u.id hne)
    · have hid : u.id = user.id := congrArg Prod.fst haccount
      rw [← hid] at haccount hmailed hnever
      exact Accounted.mailed haccount hmailed
        (List.forall_mem_cons.mpr ⟨by simp [hverified], hnever⟩)
  · rw [hevents] at hevent
    cases hevent

theorem ActivationInv.verified (h : ActivationInv rt (⟨users, events⟩, history)) {user : User}
    {token : JsString} (hmem : user ∈ users)
    (hpending : account user = (user.id, .PENDING, some (rt.sha256Hex token)))
    (hrequest : request = .verifyEmail (.text token))
    (husers : ∀ y ∈ (handle rt users request).users, (y ∈ users ∧ y.id ≠ user.id) ∨
      y.id = user.id ∧ y.status = .ACTIVE)
    (hids : (handle rt users request).users.map User.id = users.map User.id)
    (hevents : (handle rt users request).events = [])
    (hmailed : mailedToken rt (users, request) = none)
    (hverified : verifiedUser rt (users, request) = some user.id) :
    ActivationInv rt (⟨(handle rt users request).users, events'⟩, (users, request) :: history) := by
  have halone : ∀ id, id ≠ user.id → LeavesAlone rt id (users, request) := fun id hne =>
    leavesAlone_of_ne (by simp [hmailed]) (by simp_all)
  obtain ⟨hstatus, htoken⟩ : user.status = .PENDING ∧
      user.verificationToken = some (rt.sha256Hex token) := by
    simpa [account] using hpending
  obtain ⟨hlast, hnever⟩ := (h.accounted user hmem).pending hstatus
  refine ⟨hids ▸ h.nodup, hids ▸ List.forall_mem_cons.mpr ⟨fun id hnot => ?_, h.known⟩,
    fun u hu => ?_, eachEntry_cons.mpr ⟨fun event hevent _ => ?_, h.served⟩⟩
  · rw [not_not.mp fun hne => hnot (halone id hne)]
    exact List.mem_map_of_mem hmem
  · rcases husers u hu with ⟨hold, hne⟩ | ⟨hid, hactive⟩
    · exact (h.accounted u hold).cons (halone u.id hne)
    · refine ⟨fun h => by simp [hactive] at h, fun _ => ?_⟩
      rw [hid]
      subst hrequest
      exact ⟨[], users, token, history, rfl, hverified, by rw [← hlast, htoken], by simp,
        hnever⟩
  · rw [hevents] at hevent
    cases hevent

end

/-- **Every request keeps the invariant.** -/
theorem activationInv_step {rt : Runtime} {s s' : AuthState × List AuthEntry}
    {request : AuthRequest} (h : ActivationInv rt s)
    (hstep : (recordedAuth rt).step s request = some s') : ActivationInv rt s' := by
  obtain ⟨hs, hhistory⟩ := Machine.recording_step_eq hstep
  obtain ⟨⟨users, events⟩, history⟩ := s
  obtain ⟨⟨users', events'⟩, history'⟩ := s'
  obtain ⟨rfl, -⟩ : (handle rt users request).users = users' ∧ _ := by
    simpa [authMachine] using hs
  dsimp only at hhistory
  subst hhistory
  cases handle_accountEffect h.nodup request with
  | serves hserves hmailed hverified => exact h.serves hserves hmailed hverified
  | opened user hash hfresh husers haccount hevents hmailed hverified =>
      exact h.opened hfresh husers haccount hevents hmailed hverified
  | mailed user hash hmem hpending husers hids hevents hmailed hverified =>
      exact h.mailed hmem hpending husers hids hevents hmailed hverified
  | verified user token hmem hpending hrequest husers hids hevents hmailed hverified =>
      exact h.verified hmem hpending hrequest husers hids hevents hmailed hverified

theorem activationInv_of_reached {rt : Runtime} {s : AuthState × List AuthEntry}
    (h : (recordedAuth rt).Reached s) : ActivationInv rt s := by
  refine h.invariant (I := ActivationInv rt) (fun t ht => ?_)
    fun t request t' hinv _ hstep => activationInv_step hinv hstep
  obtain ⟨⟨users, events⟩, history⟩ := t
  obtain ⟨hstart, rfl⟩ : (⟨users, events⟩ : AuthState) = ⟨[], []⟩ ∧ history = [] := ht
  cases hstart
  exact ⟨List.nodup_nil, by simp, by simp, eachEntry_nil⟩

/-- **No session without the mailed token.**  In every run, before a password check of a
user passes, a code is issued for the user or a JWT is signed, one `verifyEmail` got the
token that was mailed to the user last, none before it verified the user, and since then the
user was neither verified again nor mailed another token. -/
theorem session_after_verification (rt : Runtime) {s : AuthState × List AuthEntry}
    (h : (recordedAuth rt).Reached s) : EachEntry (ServesVerified rt) s.2 :=
  (activationInv_of_reached h).served

/-! ## The middleware -/

/-- `findActiveUserById`. -/
def findActiveUserById (users : List User) (id : JsString) : Option User :=
  if id = [] then none
  else
    match users.find? fun u => u.id == id with
    | none => none
    | some user => if user.status = .ACTIVE then some user else none

/-- `authenticate`, with what `verifyTokenOrThrow` makes of a token. -/
def authenticate (verifyTokenOrThrow : JsString → Except JsError Jwt) (users : List User)
    (token : JsString) : Option User :=
  if token = [] then none
  else
    match verifyTokenOrThrow token with
    | .error _ => none
    | .ok payload => findActiveUserById users payload.id

/-- With distinct ids, the active user of an id is found by it. -/
theorem findActiveUserById_eq_some_iff {users : List User} {id : JsString} {user : User}
    (hnodup : (users.map User.id).Nodup) :
    findActiveUserById users id = some user ↔
      id ≠ [] ∧ user ∈ users ∧ user.id = id ∧ user.status = .ACTIVE := by
  constructor
  · intro h
    unfold findActiveUserById at h
    split at h
    · cases h
    · rename_i hne
      split at h
      · cases h
      · rename_i found hfound
        split at h
        · rename_i hactive
          cases h
          obtain ⟨hmem, hid⟩ := (find?_key_eq_some_iff hnodup).mp hfound
          exact ⟨hne, hmem, hid, hactive⟩
        · cases h
  · rintro ⟨hne, hmem, hid, hactive⟩
    have hfound := (find?_key_eq_some_iff hnodup).mpr ⟨hmem, hid⟩
    rw [findActiveUserById, if_neg hne, hfound]
    exact if_pos hactive

/-- **Whom the middleware lets in.**  In every state of every run a token that verifies for
a user opens that user's account exactly when the user was verified, once, with the token
mailed last. -/
theorem authenticate_iff_verifiedOnce {rt : Runtime} {s : AuthState × List AuthEntry}
    (h : (recordedAuth rt).Reached s)
    {verifyTokenOrThrow : JsString → Except JsError Jwt} {token : JsString} {payload : Jwt}
    (htoken : token ≠ []) (hverify : verifyTokenOrThrow token = .ok payload)
    (hid : payload.id ≠ []) :
    (∃ user, authenticate verifyTokenOrThrow s.1.users token = some user ∧
        user.id = payload.id) ↔
      VerifiedOnce rt payload.id s.2 := by
  have hinv := activationInv_of_reached h
  have hauth : authenticate verifyTokenOrThrow s.1.users token =
      findActiveUserById s.1.users payload.id := by
    rw [authenticate, if_neg htoken, hverify]
  rw [hauth]
  constructor
  · rintro ⟨user, hfound, -⟩
    obtain ⟨-, hmem, huser, hactive⟩ := (findActiveUserById_eq_some_iff hinv.nodup).mp hfound
    rw [← huser]
    exact (hinv.accounted user hmem).active hactive
  · intro hverified
    obtain ⟨entry, hentry, hentryId⟩ := hverified.exists_entry
    obtain ⟨user, hmem, huser⟩ := List.mem_map.mp
      (hinv.known entry hentry payload.id fun halone => halone.2 hentryId)
    refine ⟨user, (findActiveUserById_eq_some_iff hinv.nodup).mpr ⟨hid, hmem, huser, ?_⟩, huser⟩
    -- a pending user was never verified
    cases hstatus : user.status with
    | ACTIVE => rfl
    | PENDING =>
        rw [← huser] at hentryId
        exact absurd hentryId (((hinv.accounted user hmem).pending hstatus).2 entry hentry)

/-! ## A sample run -/

/-- A signup, a new token, the confirmation of the address and a login. -/
def sampleActivation : List AuthRequest :=
  [.signup ⟨.text (js "Ada"), .text (js "Byron"), .text (js "a@bank.io"),
      .text (js "12345678"), .text (js "Secret12")⟩ ⟨js "u1", js "s", js "t"⟩,
    .resendVerification (.text (js "A@bank.io ")) (js "n"),
    .verifyEmail (.text (js "n")),
    .login (.text (js "a@bank.io")) (.text (js "Secret12")) (sampleIssue 0),
    .verifyOtp (.text (js "a@bank.io")) (.text (js "123456")) 1000]

theorem reached_nothing (rt : Runtime) : (recordedAuth rt).Reached (⟨[], []⟩, []) :=
  .start ⟨rfl, rfl⟩

theorem session_after_verification_sample :
    ∃ s : AuthState × List AuthEntry, (recordedAuth sampleRuntime).Reached s ∧
      s.1.history = [.accountCreated (js "u1"), .passwordPassed (js "u1"),
        .otpIssued (js "u1") (js "s$123456"), .jwtIssued (js "u1") (js "s$123456")] ∧
      EachEntry (ServesVerified sampleRuntime) s.2 := by
  have hrun : ((recordedAuth sampleRuntime).run (⟨[], []⟩, []) sampleActivation).map
      (fun s => s.1.history) = some [.accountCreated (js "u1"), .passwordPassed (js "u1"),
        .otpIssued (js "u1") (js "s$123456"), .jwtIssued (js "u1") (js "s$123456")] := by
    decide +kernel
  obtain ⟨s, hreached, hhistory⟩ := Machine.Reached.run_map (reached_nothing _) hrun
  exact ⟨s, hreached, hhistory, session_after_verification sampleRuntime hreached⟩

theorem authenticate_iff_verifiedOnce_sample :
    ∃ s : AuthState × List AuthEntry, (recordedAuth sampleRuntime).Reached s ∧
      VerifiedOnce sampleRuntime (js "u1") s.2 := by
  let verify : JsString → Except JsError Jwt := fun _ => .ok ⟨js "u1", js "a@bank.io"⟩
  have hrun : ((recordedAuth sampleRuntime).run (⟨[], []⟩, []) sampleActivation).map
      (fun s => (authenticate verify s.1.users (js "jwt")).map User.id) =
      some (some (js "u1")) := by
    decide +kernel
  obtain ⟨s, hreached, huser⟩ := Machine.Reached.run_map (reached_nothing _) hrun
  obtain ⟨user, hauth, hid⟩ := Option.map_eq_some_iff.mp huser
  exact ⟨s, hreached, (authenticate_iff_verifiedOnce hreached
    (by decide : js "jwt" ≠ []) (rfl : verify (js "jwt") = _) (by decide)).mp ⟨user, hauth, hid⟩⟩

end Server
end InfinityLabs
