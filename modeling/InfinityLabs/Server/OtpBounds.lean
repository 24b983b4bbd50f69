import InfinityLabs.Lib.ListParts
import InfinityLabs.Lib.Runs
import InfinityLabs.Server.Auth

/-!
# Concurrent verifications of a code

`verifyOtp` awaits the read of the user, then `bcrypt.compare`, then the update;
between these points other requests run.  A request is therefore a phase that
advances one await at a time, and keeps the copy of the user that it read.

Every `saveOtp` issues a new code.  A code is told by its user and by how many
codes the user had been issued, so equal hashes do not merge two codes.
-/

namespace InfinityLabs
namespace Server

open Lib

/-- An issued code. -/
structure OtpId where
  userId : JsString
  nth : Nat
  deriving DecidableEq, Repr

/-- How far a `verifyOtp` request has come. -/
inductive VerifyPhase where
  | reading (email : JsString) (otp : Field)
  | comparing (user : User) (code : OtpId) (hash guess : JsString)
  | compared (user : User) (code : OtpId) (isValid : Bool)
  | answered (response : Response)
  deriving DecidableEq, Repr

/-- The users, how many codes each was issued, the requests, and the log of the
comparisons, of the successful verifications and of the JWTs by code. -/
structure RaceState where
  users : List User
  issued : JsString → Nat
  requests : List VerifyPhase
  compared : List (OtpId × Bool)
  verified : List OtpId
  jwts : List OtpId

/-- One atomic step: a code is saved, a request arrives, or request `i` goes on
to its next await, at time `now`. -/
inductive RaceAction where
  | issue (userId : JsString) (issue : OtpIssue)
  | submit (email otp : Field)
  | advance (i : Nat) (now : Int)

/-- A request up to its read: the fields are checked first. -/
def submitVerify (email otp : Field) : VerifyPhase :=
  if email.isFalsy || otp.isFalsy then
    .answered (.next (.app "Email and OTP are required" 400))
  else
    match email.asString with
    | .error e => .answered (.next e)
    | .ok address => .reading address otp

section

variable (rt : Runtime)

/-- The read and the guards on the copy that it returns, up to `bcrypt.compare`. -/
def readUser (users : List User) (issued : JsString → Nat) (email : JsString)
    (otp : Field) (now : Int) : VerifyPhase :=
  match findUserByEmail rt users email with
  | none => .answered (.next (.app "Invalid request" 400))
  | some user =>
      if user.status ≠ .ACTIVE then .answered (.next (.app "Invalid request" 400))
      else
        match checkOtpState user now with
        | .error e => .answered (.next e)
        | .ok hash =>
            match otp.asString with
            | .error e => .answered (.next e)
            | .ok guess => .comparing user ⟨user.id, issued user.id⟩ hash guess

/-- The response to a verified code, from the copy that was read. -/
def respondVerified (user : User) : Response :=
  match createToken user with
  | .error e => .next e
  | .ok token => .session ⟨user.id, user.firstName, user.lastName, user.email⟩ token

/-- The JWTs that `respondVerified` issues on a code. -/
def jwtsOf (user : User) (code : OtpId) : List OtpId :=
  match createToken user with
  | .error _ => []
  | .ok _ => [code]

/-- Request `i` goes on from `phase`. -/
def RaceState.advance (s : RaceState) (i : Nat) (now : Int) : VerifyPhase → RaceState
  | .reading email otp =>
      { s with requests := s.requests.set i (readUser rt s.users s.issued email otp now) }
  | .comparing user code hash guess =>
      let isValid := rt.bcryptCompare guess hash
      { s with requests := s.requests.set i (.compared user code isValid)
               compared := s.compared ++ [(code, isValid)] }
  | .compared user _ false =>
      { s with users := updateUserById s.users user.id addMiss
               requests := s.requests.set i (.answered (.next (.app "Invalid OTP." 400))) }
  | .compared user code true =>
      { s with users := updateUserById s.users user.id clearOtp
               requests := s.requests.set i (.answered (respondVerified user))
               verified := s.verified ++ [code]
               jwts := s.jwts ++ jwtsOf user code }
  | .answered _ => s

/-- One step. -/
def RaceState.step (s : RaceState) : RaceAction → Option RaceState
  | .issue userId issue =>
      some { s with users := saveOtp rt s.users userId issue
                    issued := Function.update s.issued userId (s.issued userId + 1) }
  | .submit email otp => some { s with requests := s.requests ++ [submitVerify email otp] }
  | .advance i now => s.requests[i]?.map (s.advance rt i now)

/-- No code has been issued and no request has arrived yet. -/
def raceStart (users : List User) : RaceState :=
  ⟨users, fun _ => 0, [], [], [], []⟩

/-- The interleavings from users with distinct ids and without codes. -/
def raceMachine : Machine RaceState RaceAction where
  start s := ∃ users : List User, (users.map User.id).Nodup ∧
    (∀ u ∈ users, u.otpHash = none) ∧ s = raceStart users
  step := RaceState.step rt

/-! ## A request on its own -/

/-- The state after request `i` has advanced three times without interruption. -/
def RaceState.finish (s : RaceState) (i : Nat) (now : Int) : Option RaceState := do
  let s₁ ← s.step rt (.advance i now)
  let s₂ ← s₁.step rt (.advance i now)
  s₂.step rt (.advance i now)

/-- The last request advances from its phase. -/
theorem step_advance_last {s : RaceState} {others : List VerifyPhase}
    {phase : VerifyPhase} (hlast : s.requests = others ++ [phase]) (now : Int) :
    s.step rt (.advance others.length now) =
      some (s.advance rt others.length now phase) := by
  simp [RaceState.step, hlast]

/-- An answered last request stays answered. -/
theorem finish_answered {s : RaceState} {others : List VerifyPhase}
    {response : Response} (hlast : s.requests = others ++ [.answered response])
    (now : Int) : s.finish rt others.length now = some s := by
  simp [RaceState.finish, step_advance_last rt hlast, RaceState.advance]

/-- **A request that nobody interrupts is the endpoint.**  It leaves the users
that `verifyOtp` leaves, and it is answered as `verifyOtp` answers. -/
theorem finish_eq_verifyOtp (s : RaceState) (email otp : Field) (now : Int) :
    (({ s with requests := s.requests ++ [submitVerify email otp] } : RaceState).finish
        rt s.requests.length now).map (fun s' => (s'.users, s'.requests)) =
      some ((verifyOtp rt s.users email otp now).users,
        s.requests ++ [.answered (verifyOtp rt s.users email otp now).response]) := by
  -- the endpoint's checks in their order; a failed one answers at once
  by_cases hfields : (email.isFalsy || otp.isFalsy) = true
  · simp only [submitVerify, verifyOtp, hfields, if_true]
    rw [finish_answered rt rfl]
    rfl
  · simp only [submitVerify, verifyOtp, hfields, if_false, Bool.false_eq_true]
    cases hemail : email.asString with
    | error e =>
        simp only
        rw [finish_answered rt rfl]
        rfl
    | ok address =>
        simp only [RaceState.finish, RaceState.step, RaceState.advance, readUser,
          List.getElem?_concat_length, Option.map_some, Option.bind_eq_bind,
          Option.bind_some, List.set_append_right _ _ (Nat.le_refl _), Nat.sub_self,
          List.set_cons_zero]
        cases hfound : findUserByEmail rt s.users address with
        | none => simp [RaceState.advance, Handled.fail]
        | some user =>
            by_cases hactive : user.status = .ACTIVE
            · simp only [hactive, ne_eq, not_true_eq_false, if_false, verifyOtpService]
              cases hstate : checkOtpState user now with
              | error e => simp [RaceState.advance, Handled.fail]
              | ok hash =>
                  cases hotp : otp.asString with
                  | error e => simp [RaceState.advance, Handled.fail]
                  | ok guess =>
                      cases hmatch : rt.bcryptCompare guess hash with
                      | true =>
                          cases htoken : createToken user with
                          | error e => simp [RaceState.advance, hmatch, respondVerified, htoken,
                              Handled.fail]
                          | ok token => simp [RaceState.advance, hmatch, respondVerified, htoken]
                      | false => simp [RaceState.advance, hmatch, Handled.fail]
            · simp [RaceState.advance, hactive, Handled.fail]

end

/-!
## Bounds on the use of a code

Two bounds on every issued code: at most `MAX_OTP_ATTEMPTS` wrong guesses are
compared with it, and at most one verification succeeds on it.

The counter and the stored hash are read in one step and written in a later one,
so neither bound holds for all interleavings.  Each holds in the runs in which a
read lets a guess through only if the requests still in flight leave room for
it; the invariants say that the stored document and the requests in flight
together account for the log.
-/

/-! ## Requests in flight -/

/-- A request between its read and its comparison with the code, whose guess is
right or not. -/
def VerifyPhase.isComparing (rt : Runtime) (right : Bool) (code : OtpId) :
    VerifyPhase → Bool
  | .comparing _ c hash guess => c == code && rt.bcryptCompare guess hash == right
  | _ => false

/-- A request between its comparison and its update. -/
def VerifyPhase.isCompared (right : Bool) (code : OtpId) : VerifyPhase → Bool
  | .compared _ c isValid => c == code && isValid == right
  | _ => false

/-- The requests about to compare a right, or a wrong, guess with the code. -/
def comparing (rt : Runtime) (requests : List VerifyPhase) (right : Bool)
    (code : OtpId) : Nat :=
  requests.countP (VerifyPhase.isComparing rt right code)

/-- The requests whose comparison is not written back yet. -/
def pending (requests : List VerifyPhase) (right : Bool) (code : OtpId) : Nat :=
  requests.countP (VerifyPhase.isCompared right code)

/-- The requests that read the code and are not answered yet. -/
def inFlight (rt : Runtime) (requests : List VerifyPhase) (right : Bool)
    (code : OtpId) : Nat :=
  comparing rt requests right code + pending requests right code

/-- The wrong guesses in a log of comparisons with the code. -/
def misses (compared : List (OtpId × Bool)) (code : OtpId) : Nat :=
  compared.count (code, false)

/-- The code that a user holds after what was issued so far. -/
def currentCode (issued : JsString → Nat) (u : User) : OtpId :=
  ⟨u.id, issued u.id⟩

section

variable {requests : List VerifyPhase} {i : Nat} {phase : VerifyPhase}

/-- How the comparisons in flight change when one request moves on. -/
theorem comparing_set (hi : requests[i]? = some phase) (rt : Runtime) (right : Bool)
    (code : OtpId) (phase' : VerifyPhase) :
    comparing rt (requests.set i phase') right code +
        (if phase.isComparing rt right code = true then 1 else 0) =
      comparing rt requests right code +
        if phase'.isComparing rt right code = true then 1 else 0 :=
  countP_set_add hi phase'

/-- How the updates in flight change when one request moves on. -/
theorem pending_set (hi : requests[i]? = some phase) (right : Bool) (code : OtpId)
    (phase' : VerifyPhase) :
    pending (requests.set i phase') right code +
        (if phase.isCompared right code = true then 1 else 0) =
      pending requests right code +
        if phase'.isCompared right code = true then 1 else 0 :=
  countP_set_add hi phase'

/-- A refused request is not in flight. -/
theorem counts_refused {email : JsString} {otp : Field}
    (hi : requests[i]? = some (.reading email otp)) (rt : Runtime) (right : Bool)
    (code : OtpId) (response : Response) :
    comparing rt (requests.set i (.answered response)) right code =
        comparing rt requests right code ∧
      pending (requests.set i (.answered response)) right code =
        pending requests right code := by
  have hcomparing := comparing_set hi rt right code (.answered response)
  have hpending := pending_set hi right code (.answered response)
  constructor
  · simpa [VerifyPhase.isComparing] using hcomparing
  · simpa [VerifyPhase.isCompared] using hpending

/-- A request that is let through is about to compare. -/
theorem counts_letThrough {email : JsString} {otp : Field}
    (hi : requests[i]? = some (.reading email otp)) (rt : Runtime) (right : Bool)
    (code : OtpId) (user : User) (code₀ : OtpId) (hash guess : JsString) :
    comparing rt (requests.set i (.comparing user code₀ hash guess)) right code =
        comparing rt requests right code +
          (if code₀ = code ∧ rt.bcryptCompare guess hash = right then 1 else 0) ∧
      pending (requests.set i (.comparing user code₀ hash guess)) right code =
        pending requests right code := by
  have hcomparing := comparing_set hi rt right code (.comparing user code₀ hash guess)
  have hpending := pending_set hi right code (.comparing user code₀ hash guess)
  constructor
  · simpa [VerifyPhase.isComparing] using hcomparing
  · simpa [VerifyPhase.isCompared] using hpending

/-- A comparison turns a request that compares into one that is written back. -/
theorem counts_compare {user : User} {code₀ : OtpId} {hash guess : JsString}
    (hi : requests[i]? = some (.comparing user code₀ hash guess)) (rt : Runtime)
    (right : Bool) (code : OtpId) :
    let isValid := rt.bcryptCompare guess hash
    comparing rt (requests.set i (.compared user code₀ isValid)) right code +
        (if code₀ = code ∧ isValid = right then 1 else 0) =
        comparing rt requests right code ∧
      pending (requests.set i (.compared user code₀ isValid)) right code =
        pending requests right code +
          if code₀ = code ∧ isValid = right then 1 else 0 := by
  have hcomparing := comparing_set hi rt right code
    (.compared user code₀ (rt.bcryptCompare guess hash))
  have hpending := pending_set hi right code
    (.compared user code₀ (rt.bcryptCompare guess hash))
  constructor
  · simpa [VerifyPhase.isComparing] using hcomparing
  · simpa [VerifyPhase.isCompared] using hpending

/-- A request that is written back is in flight no more. -/
theorem counts_answer {user : User} {code₀ : OtpId} {isValid : Bool}
    (hi : requests[i]? = some (.compared user code₀ isValid)) (rt : Runtime)
    (right : Bool) (code : OtpId) (response : Response) :
    comparing rt (requests.set i (.answered response)) right code =
        comparing rt requests right code ∧
      pending (requests.set i (.answered response)) right code +
          (if code₀ = code ∧ isValid = right then 1 else 0) =
        pending requests right code := by
  have hcomparing := comparing_set hi rt right code (.answered response)
  have hpending := pending_set hi right code (.answered response)
  constructor
  · simpa [VerifyPhase.isComparing] using hcomparing
  · simpa [VerifyPhase.isCompared] using hpending

end

/-- A new request is not in flight yet. -/
theorem inFlight_submit {phase : VerifyPhase}
    (hphase : (∃ response, phase = .answered response) ∨
      ∃ address otp, phase = .reading address otp) (rt : Runtime)
    (requests : List VerifyPhase) (right : Bool) (code : OtpId) :
    comparing rt (requests ++ [phase]) right code = comparing rt requests right code ∧
      pending (requests ++ [phase]) right code = pending requests right code := by
  rcases hphase with ⟨response, rfl⟩ | ⟨address, otp, rfl⟩
  · simp [comparing, pending, VerifyPhase.isComparing, VerifyPhase.isCompared]
  · simp [comparing, pending, VerifyPhase.isComparing, VerifyPhase.isCompared]

/-! ## What a step can do -/

/-- A submitted request reads next, or is answered. -/
theorem submitVerify_cases (email otp : Field) :
    (∃ response, submitVerify email otp = .answered response) ∨
      ∃ address otp', submitVerify email otp = .reading address otp' := by
  unfold submitVerify
  split
  · exact Or.inl ⟨_, rfl⟩
  · split
    · exact Or.inl ⟨_, rfl⟩
    · exact Or.inr ⟨_, _, rfl⟩

/-- A read answers the request, or lets a guess through to the code of an
unlocked user. -/
theorem readUser_cases (rt : Runtime) (users : List User) (issued : JsString → Nat)
    (email : JsString) (otp : Field) (now : Int) :
    (∃ response, readUser rt users issued email otp now = .answered response) ∨
      ∃ user ∈ users, ∃ hash guess, user.otpHash = some hash ∧
        readUser rt users issued email otp now =
          .comparing user (currentCode issued user) hash guess := by
  unfold readUser
  split
  · exact Or.inl ⟨_, rfl⟩
  · rename_i user hfound
    split
    · exact Or.inl ⟨_, rfl⟩
    · split
      · exact Or.inl ⟨_, rfl⟩
      · rename_i hash hstate
        split
        · exact Or.inl ⟨_, rfl⟩
        · exact Or.inr ⟨user, findUserByEmail_mem hfound, hash, _,
            (checkOtpState_ok hstate).2, rfl⟩

/-- What one step does to the state. -/
inductive RaceEffect (rt : Runtime) (s : RaceState) : RaceAction → RaceState → Prop
  | issue (userId : JsString) (issue : OtpIssue) :
      RaceEffect rt s (.issue userId issue)
        { s with users := saveOtp rt s.users userId issue
                 issued := Function.update s.issued userId (s.issued userId + 1) }
  | submit {email otp : Field} {phase : VerifyPhase}
      (hphase : (∃ response, phase = .answered response) ∨
        ∃ address otp', phase = .reading address otp') :
      RaceEffect rt s (.submit email otp) { s with requests := s.requests ++ [phase] }
  | refused {i : Nat} {now : Int} {email : JsString} {otp : Field} {response : Response}
      (hi : s.requests[i]? = some (.reading email otp)) :
      RaceEffect rt s (.advance i now)
        { s with requests := s.requests.set i (.answered response) }
  | letThrough {i : Nat} {now : Int} {email : JsString} {otp : Field} {user : User}
      {hash guess : JsString} (hi : s.requests[i]? = some (.reading email otp))
      (huser : user ∈ s.users) (hhash : user.otpHash = some hash)
      (hread : readUser rt s.users s.issued email otp now =
        .comparing user (currentCode s.issued user) hash guess) :
      RaceEffect rt s (.advance i now)
        { s with requests := s.requests.set i
                  (.comparing user (currentCode s.issued user) hash guess) }
  | compare {i : Nat} {now : Int} {user : User} {code : OtpId} {hash guess : JsString}
      (hi : s.requests[i]? = some (.comparing user code hash guess)) :
      RaceEffect rt s (.advance i now)
        { s with requests := s.requests.set i
                  (.compared user code (rt.bcryptCompare guess hash))
                 compared := s.compared ++ [(code, rt.bcryptCompare guess hash)] }
  | miss {i : Nat} {now : Int} {user : User} {code : OtpId} {response : Response}
      (hi : s.requests[i]? = some (.compared user code false)) :
      RaceEffect rt s (.advance i now)
        { s with users := updateUserById s.users user.id addMiss
                 requests := s.requests.set i (.answered response) }
  | hit {i : Nat} {now : Int} {user : User} {code : OtpId} {response : Response}
      (hi : s.requests[i]? = some (.compared user code true)) :
      RaceEffect rt s (.advance i now)
        { s with users := updateUserById s.users user.id clearOtp
                 requests := s.requests.set i (.answered response)
                 verified := s.verified ++ [code]
                 jwts := s.jwts ++ jwtsOf user code }
  | idle {i : Nat} {now : Int} : RaceEffect rt s (.advance i now) s

/-- **Every step has one of the effects.** -/
theorem race_effect {rt : Runtime} {s s' : RaceState} {a : RaceAction}
    (h : s.step rt a = some s') : RaceEffect rt s a s' := by
  cases a with
  | issue userId issue =>
      cases h
      exact .issue userId issue
  | submit email otp =>
      cases h
      exact .submit (submitVerify_cases email otp)
  | advance i now =>
      obtain ⟨phase, hi, rfl⟩ := Option.map_eq_some_iff.mp h
      cases phase with
      | reading email otp =>
          simp only [RaceState.advance]
          rcases readUser_cases rt s.users s.issued email otp now with
            ⟨response, hread⟩ | ⟨user, huser, hash, guess, hhash, hread⟩
          · rw [hread]
            exact .refused hi
          · rw [hread]
            exact .letThrough hi huser hhash hread
      | comparing user code hash guess => exact .compare hi
      | compared user code isValid =>
          cases isValid with
          | false => exact .miss hi
          | true => exact .hit hi
      | answered response => exact .idle

/-! ## Codes that are known -/

/-- A request in flight compares with a code that its user was issued. -/
def VerifyPhase.Known (issued : JsString → Nat) : VerifyPhase → Prop
  | .comparing user code _ _ => user.id = code.userId ∧ code.nth ≤ issued code.userId
  | .compared user code _ => user.id = code.userId ∧ code.nth ≤ issued code.userId
  | _ => True

/-- Users have distinct ids, and only issued codes occur. -/
structure RaceWf (s : RaceState) : Prop where
  nodup : (s.users.map User.id).Nodup
  known : ∀ phase ∈ s.requests, phase.Known s.issued
  compared : ∀ entry ∈ s.compared, entry.1.nth ≤ s.issued entry.1.userId
  verified : ∀ code ∈ s.verified, code.nth ≤ s.issued code.userId
  jwts : s.jwts.Sublist s.verified

/-- A known phase stays known when more codes are issued. -/
theorem VerifyPhase.Known.mono {issued issued' : JsString → Nat}
    (hle : ∀ id, issued id ≤ issued' id) {phase : VerifyPhase}
    (h : phase.Known issued) : phase.Known issued' := by
  cases phase with
  | comparing user code hash guess => exact ⟨h.1, h.2.trans (hle _)⟩
  | compared user code isValid => exact ⟨h.1, h.2.trans (hle _)⟩
  | reading email otp => trivial
  | answered response => trivial

/-- The phases of a list stay known when one of them moves to a known phase. -/
theorem known_set {issued : JsString → Nat} {requests : List VerifyPhase}
    (h : ∀ phase ∈ requests, phase.Known issued) (i : Nat) {phase : VerifyPhase}
    (hphase : phase.Known issued) :
    ∀ phase' ∈ requests.set i phase, phase'.Known issued := by
  intro phase' hmem
  rcases List.mem_or_eq_of_mem_set hmem with hold | rfl
  · exact h phase' hold
  · exact hphase

/-- Updates by id that keep ids keep them distinct. -/
theorem nodup_updateUserById {users : List User} (h : (users.map User.id).Nodup)
    (id : JsString) {update : User → User} (hid : ∀ u, (update u).id = u.id) :
    ((updateUserById users id update).map User.id).Nodup := by
  have hids : (updateUserById users id update).map User.id = users.map User.id :=
    map_updateFirst _ hid users
  rw [hids]
  exact h

/-- Every step keeps codes known. -/
theorem raceWf_step {rt : Runtime} {s s' : RaceState} {a : RaceAction}
    (h : RaceWf s) (heffect : RaceEffect rt s a s') : RaceWf s' := by
  cases heffect with
  | issue userId issue =>
      have hle : ∀ id, s.issued id ≤
          Function.update s.issued userId (s.issued userId + 1) id := by
        intro id
        by_cases hid : id = userId
        · subst hid
          simp
        · simp [hid]
      exact ⟨nodup_updateUserById h.nodup userId fun _ => rfl,
        fun phase hphase => (h.known phase hphase).mono hle,
        fun entry hentry => (h.compared entry hentry).trans (hle _),
        fun code hcode => (h.verified code hcode).trans (hle _), h.jwts⟩
  | submit hphase =>
      refine { h with known := forall_mem_concat h.known ?_ }
      rcases hphase with ⟨response, rfl⟩ | ⟨address, otp, rfl⟩
      · trivial
      · trivial
  | refused hi => exact { h with known := known_set h.known _ trivial }
  | letThrough hi huser hhash hread =>
      exact { h with known := known_set h.known _ ⟨rfl, Nat.le_refl _⟩ }
  | compare hi =>
      have hknown := h.known _ (List.mem_of_getElem? hi)
      exact { h with known := known_set h.known _ hknown
                     compared := forall_mem_concat h.compared hknown.2 }
  | miss hi =>
      exact { h with nodup := nodup_updateUserById h.nodup _ fun _ => rfl
                     known := known_set h.known _ trivial }
  | @hit i now user code response hi =>
      have hknown := h.known _ (List.mem_of_getElem? hi)
      refine { nodup := nodup_updateUserById h.nodup _ fun _ => rfl
               known := known_set h.known _ trivial
               compared := h.compared
               verified := forall_mem_concat h.verified hknown.2
               jwts := h.jwts.append ?_ }
      unfold jwtsOf
      split
      · exact List.nil_sublist _
      · exact List.Sublist.refl _
  | idle => exact h

/-- A code that is still to be issued was compared and verified with nowhere. -/
theorem RaceWf.fresh {s : RaceState} (h : RaceWf s) {code : OtpId}
    (hcode : s.issued code.userId < code.nth) :
    misses s.compared code = 0 ∧ s.verified.count code = 0 := by
  constructor
  · apply List.count_eq_zero.mpr
    intro hmem
    have hle := h.compared _ hmem
    simp only at hle
    omega
  · apply List.count_eq_zero.mpr
    intro hmem
    have hle := h.verified _ hmem
    omega

/-- A read lets a guess through to the code only where `room` holds of the copy
that it read, of the code and of whether the guess is right. -/
def LetsThroughOnly (rt : Runtime) (s : RaceState) (room : User → OtpId → Bool → Prop) :
    RaceAction → Prop
  | .advance i now =>
      match s.requests[i]? with
      | some (.reading email otp) =>
          match readUser rt s.users s.issued email otp now with
          | .comparing user code hash guess => room user code (rt.bcryptCompare guess hash)
          | _ => True
      | _ => True
  | _ => True

/-! ## At most `MAX_OTP_ATTEMPTS` wrong guesses -/

/-- No code was compared with more than `MAX_OTP_ATTEMPTS` wrong guesses. -/
def BruteForceBounded (s : RaceState) : Prop :=
  ∀ code, misses s.compared code ≤ MAX_OTP_ATTEMPTS

/-- A read that lets a wrong guess through finds that the stored misses, and the
wrong guesses in flight on the code, are together below the limit. -/
def MissesBelowLimit (rt : Runtime) (s : RaceState) : RaceAction → Prop :=
  LetsThroughOnly rt s fun user code isValid =>
    isValid = false →
      user.otpAttempts + inFlight rt s.requests false code < MAX_OTP_ATTEMPTS

/-- The misses of a code, with the wrong guesses about to be compared, are within
the limit; those of a stored code are all counted or about to be. -/
structure MissInv (rt : Runtime) (s : RaceState) : Prop where
  wf : RaceWf s
  bound : ∀ code,
    misses s.compared code + comparing rt s.requests false code ≤ MAX_OTP_ATTEMPTS
  stored : ∀ u ∈ s.users, u.otpHash ≠ none →
    misses s.compared (currentCode s.issued u) ≤
      u.otpAttempts + pending s.requests false (currentCode s.issued u)

/-- A user after an update by id, told from its document before. -/
theorem mem_updateUserById {users : List User} (hnodup : (users.map User.id).Nodup)
    {id : JsString} {update : User → User} {u : User}
    (h : u ∈ updateUserById users id update) :
    (u ∈ users ∧ u.id ≠ id) ∨ ∃ u₀ ∈ users, u₀.id = id ∧ u = update u₀ :=
  mem_updateFirst_key hnodup h

/-- After `saveOtp` a user holds the code that it held before, or a fresh one. -/
theorem issue_cases {rt : Runtime} {s : RaceState} (h : RaceWf s) {userId : JsString}
    {issue : OtpIssue} {u : User} (hu : u ∈ saveOtp rt s.users userId issue) :
    (u ∈ s.users ∧ currentCode (Function.update s.issued userId (s.issued userId + 1)) u =
        currentCode s.issued u) ∨
      let code := currentCode (Function.update s.issued userId (s.issued userId + 1)) u
      s.issued code.userId < code.nth := by
  rcases mem_updateUserById h.nodup hu with ⟨hold, hne⟩ | ⟨u₀, -, rfl, rfl⟩
  · refine Or.inl ⟨hold, ?_⟩
    simp only [currentCode, Function.update_of_ne hne]
  · apply Or.inr
    simp [currentCode, storeOtp]

/-- **A guarded step keeps the account of the misses.** -/
theorem missInv_step {rt : Runtime} {s s' : RaceState} {a : RaceAction}
    (h : MissInv rt s) (hguard : MissesBelowLimit rt s a)
    (heffect : RaceEffect rt s a s') : MissInv rt s' := by
  have hwf := raceWf_step h.wf heffect
  cases heffect with
  | issue userId issue =>
      refine ⟨hwf, h.bound, fun u hu hotp => ?_⟩
      rcases issue_cases h.wf hu with ⟨hold, hcode⟩ | hfresh
      · simp only [hcode]
        exact h.stored u hold hotp
      · have hzero := (h.wf.fresh hfresh).1
        simp only [hzero, Nat.zero_le]
  | @submit email otp phase hphase =>
      refine ⟨hwf, fun code => ?_, fun u hu hotp => ?_⟩
      · rw [(inFlight_submit hphase rt s.requests false code).1]
        exact h.bound code
      · rw [(inFlight_submit hphase rt s.requests false _).2]
        exact h.stored u hu hotp
  | @refused i now email otp response hi =>
      refine ⟨hwf, fun code => ?_, fun u hu hotp => ?_⟩
      · rw [(counts_refused hi rt false code response).1]
        exact h.bound code
      · rw [(counts_refused hi rt false _ response).2]
        exact h.stored u hu hotp
  | @letThrough i now email otp user hash guess hi huser hhash hread =>
      simp only [MissesBelowLimit, LetsThroughOnly, hi, hread] at hguard
      refine ⟨hwf, fun code => ?_, fun u hu hotp => ?_⟩
      · have hbound := h.bound code
        show misses s.compared code + comparing rt (s.requests.set i _) false code ≤ _
        rw [(counts_letThrough hi rt false code user _ hash guess).1]
        by_cases hmine : currentCode s.issued user = code ∧
            rt.bcryptCompare guess hash = false
        · obtain ⟨rfl, hwrong⟩ := hmine
          -- the misses so far are counted in the document or about to be
          have hstored := h.stored user huser (by simp [hhash])
          have hroom := hguard hwrong
          simp only [inFlight] at hroom
          rw [if_pos ⟨rfl, hwrong⟩]
          omega
        · rw [if_neg hmine]
          omega
      · rw [(counts_letThrough hi rt false _ user _ hash guess).2]
        exact h.stored u hu hotp
  | @compare i now user code₀ hash guess hi =>
      -- the log counts the miss from here on, and the document after the write
      have hmisses : ∀ code, misses (s.compared ++ [(code₀, rt.bcryptCompare guess hash)])
          code = misses s.compared code +
            if code₀ = code ∧ rt.bcryptCompare guess hash = false then 1 else 0 := by
        intro code
        simp [misses, List.count_append, List.count_singleton]
      refine ⟨hwf, fun code => ?_, fun u hu hotp => ?_⟩
      · have hbound := h.bound code
        have hcounts := (counts_compare hi rt false code).1
        show misses (s.compared ++ _) code + comparing rt (s.requests.set i _) false code ≤ _
        rw [hmisses]
        omega
      · have hstored := h.stored u hu hotp
        have hcounts := (counts_compare hi rt false (currentCode s.issued u)).2
        show misses (s.compared ++ _) (currentCode s.issued u) ≤
          u.otpAttempts + pending (s.requests.set i _) false (currentCode s.issued u)
        rw [hmisses]
        omega
  | @miss i now user code₀ response hi =>
      have hknown := h.wf.known _ (List.mem_of_getElem? hi)
      refine ⟨hwf, fun code => ?_, fun u hu hotp => ?_⟩
      · rw [(counts_answer hi rt false code response).1]
        exact h.bound code
      · have hcounts := (counts_answer hi rt false (currentCode s.issued u) response).2
        show misses s.compared (currentCode s.issued u) ≤
          u.otpAttempts + pending (s.requests.set i _) false (currentCode s.issued u)
        rcases mem_updateUserById h.wf.nodup hu with ⟨hold, hne⟩ | ⟨u₀, hu₀, hid, rfl⟩
        · have hstored := h.stored u hold hotp
          -- the miss was on another user's code
          have hother : code₀ ≠ currentCode s.issued u := by
            rintro rfl
            exact hne hknown.1.symm
          rw [if_neg fun hmine => hother hmine.1] at hcounts
          omega
        · have hstored := h.stored u₀ hu₀ hotp
          have hcode : currentCode s.issued (addMiss u₀) = currentCode s.issued u₀ := rfl
          have hattempts : (addMiss u₀).otpAttempts = u₀.otpAttempts + 1 := rfl
          rw [hcode] at hcounts ⊢
          split at hcounts
          · omega
          · omega
  | @hit i now user code₀ response hi =>
      refine ⟨hwf, fun code => ?_, fun u hu hotp => ?_⟩
      · rw [(counts_answer hi rt false code response).1]
        exact h.bound code
      · have hcounts := (counts_answer hi rt false (currentCode s.issued u) response).2
        rw [if_neg fun hmine => Bool.noConfusion hmine.2] at hcounts
        show misses s.compared (currentCode s.issued u) ≤
          u.otpAttempts + pending (s.requests.set i _) false (currentCode s.issued u)
        rcases mem_updateUserById h.wf.nodup hu with ⟨hold, hne⟩ | ⟨u₀, hu₀, hid, rfl⟩
        · have hstored := h.stored u hold hotp
          omega
        · -- a hit clears the code, whichever one is stored by now
          exact absurd rfl hotp
  | idle => exact h

/-- Users with distinct ids and without codes start with an empty account. -/
theorem raceWf_start {users : List User} (hnodup : (users.map User.id).Nodup) :
    RaceWf (raceStart users) :=
  ⟨hnodup, by simp [raceStart], by simp [raceStart], by simp [raceStart],
    List.Sublist.refl _⟩

/-- **At most `MAX_OTP_ATTEMPTS` wrong guesses** are compared with a code, in every
interleaving that lets wrong guesses through only while the stored misses and
those in flight are below the limit. -/
theorem verifyOtp_bruteForce (rt : Runtime) {s : RaceState}
    (h : (raceMachine rt).ReachedBy (MissesBelowLimit rt) s) : BruteForceBounded s := by
  have hinv : MissInv rt s := by
    refine h.invariant (I := MissInv rt) (fun t ht => ?_)
      fun t a t' hinv hguard hstep => missInv_step hinv hguard (race_effect hstep)
    obtain ⟨users, hnodup, hcodes, rfl⟩ := ht
    refine ⟨raceWf_start hnodup, fun code => ?_, fun u hu hotp => absurd (hcodes u hu) hotp⟩
    simp [raceStart, misses, comparing]
  intro code
  have hbound := hinv.bound code
  omega

/-- An active user, whose code is still to be issued. -/
def sampleHolder : User where
  id := js "u1"
  firstName := js "Ada"
  lastName := js "Byron"
  email := js "a@bank.io"
  password := js "s$Secret12"
  phone := js "12345678"
  status := .ACTIVE
  verificationToken := none
  otpHash := none
  otpExpiry := none
  otpAttempts := 0
  balance := DEFAULT_BALANCE

/-- The sample user as the only one is a start of the machine. -/
theorem raceStart_sampleHolder :
    (raceMachine sampleRuntime).start (raceStart [sampleHolder]) :=
  ⟨[sampleHolder], by simp, by simp [sampleHolder], rfl⟩

/-- A request of the sample user with a code. -/
def sampleVerify (otp : String) : RaceAction :=
  .submit (.text (js "a@bank.io")) (.text (js otp))

/-- One issued code, a wrong and then the right guess. -/
def sampleVerifications : List RaceAction :=
  [.issue (js "u1") (sampleIssue 0),
    sampleVerify "000000", .advance 0 10, .advance 0 20, .advance 0 30,
    sampleVerify "123456", .advance 1 40, .advance 1 50, .advance 1 60]

/-- A wrong guess followed by the right one meets the guard. -/
theorem verifyOtp_bruteForce_sample :
    ∃ s : RaceState, (raceMachine sampleRuntime).ReachedBy
        (MissesBelowLimit sampleRuntime) s ∧
      s.compared.length = 2 ∧ BruteForceBounded s := by
  have hrun : ((raceMachine sampleRuntime).run (raceStart [sampleHolder])
      sampleVerifications).map (fun s => s.compared.length) = some 2 := by
    decide +kernel
  have hadmits : (raceMachine sampleRuntime).Admits (MissesBelowLimit sampleRuntime)
      (raceStart [sampleHolder]) sampleVerifications := by
    refine ⟨trivial, trivial, fun _ => by decide +kernel, trivial, trivial, trivial,
      fun _ => by decide +kernel, trivial, trivial, trivial⟩
  obtain ⟨s, hreached, hlength⟩ :=
    Machine.ReachedBy.run_map (.start raceStart_sampleHolder) hadmits hrun
  exact ⟨s, hreached, hlength, verifyOtp_bruteForce sampleRuntime hreached⟩

/-- Six requests that all read before the first of them writes back compare six
wrong guesses with one code. -/
theorem verifyOtp_bruteForce_concurrent :
    ¬ ∀ s : RaceState, (raceMachine sampleRuntime).Reached s → BruteForceBounded s := by
  intro hclaim
  have hrun : ((raceMachine sampleRuntime).run (raceStart [sampleHolder])
      (.issue (js "u1") (sampleIssue 0) :: List.replicate 6 (sampleVerify "000000") ++
        (List.range 6).map (fun i => .advance i 10) ++
        (List.range 6).map (fun i => .advance i 20))).map (fun s => s.compared) =
      some (List.replicate 6 (⟨js "u1", 1⟩, false)) := by
    decide +kernel
  obtain ⟨s, hreached, hcompared⟩ := Machine.Reached.run_map (.start raceStart_sampleHolder) hrun
  have hbound := hclaim s hreached
    ⟨js "u1", 1⟩
  rw [hcompared] at hbound
  revert hbound
  decide

/-! ## At most one verification -/

/-- No code led to two successful verifications, and so to two JWTs. -/
def OneTime (s : RaceState) : Prop :=
  ∀ code, s.verified.count code ≤ 1 ∧ s.jwts.count code ≤ 1

/-- A read that lets a right guess through finds no other right guess in flight
on the code. -/
def HitsAlone (rt : Runtime) (s : RaceState) : RaceAction → Prop :=
  LetsThroughOnly rt s fun _ code isValid =>
    isValid = true → inFlight rt s.requests true code = 0

/-- A code was verified or has one right guess in flight, not both; a stored code
was not verified. -/
structure HitInv (rt : Runtime) (s : RaceState) : Prop where
  wf : RaceWf s
  once : ∀ code, s.verified.count code + inFlight rt s.requests true code ≤ 1
  stored : ∀ u ∈ s.users, u.otpHash ≠ none → s.verified.count (currentCode s.issued u) = 0

/-- **A guarded step keeps the account of the hits.** -/
theorem hitInv_step {rt : Runtime} {s s' : RaceState} {a : RaceAction}
    (h : HitInv rt s) (hguard : HitsAlone rt s a) (heffect : RaceEffect rt s a s') :
    HitInv rt s' := by
  have hwf := raceWf_step h.wf heffect
  cases heffect with
  | issue userId issue =>
      refine ⟨hwf, h.once, fun u hu hotp => ?_⟩
      rcases issue_cases h.wf hu with ⟨hold, hcode⟩ | hfresh
      · simp only [hcode]
        exact h.stored u hold hotp
      · exact (h.wf.fresh hfresh).2
  | @submit email otp phase hphase =>
      refine ⟨hwf, fun code => ?_, h.stored⟩
      obtain ⟨hcomparing, hpending⟩ := inFlight_submit hphase rt s.requests true code
      simp only [inFlight, hcomparing, hpending]
      exact h.once code
  | @refused i now email otp response hi =>
      refine ⟨hwf, fun code => ?_, h.stored⟩
      obtain ⟨hcomparing, hpending⟩ := counts_refused hi rt true code response
      simp only [inFlight, hcomparing, hpending]
      exact h.once code
  | @letThrough i now email otp user hash guess hi huser hhash hread =>
      simp only [HitsAlone, LetsThroughOnly, hi, hread] at hguard
      refine ⟨hwf, fun code => ?_, h.stored⟩
      have honce := h.once code
      obtain ⟨hcomparing, hpending⟩ :=
        counts_letThrough hi rt true code user (currentCode s.issued user) hash guess
      simp only [inFlight, hcomparing, hpending] at honce ⊢
      by_cases hmine : currentCode s.issued user = code ∧ rt.bcryptCompare guess hash = true
      · obtain ⟨rfl, hright⟩ := hmine
        -- a stored code was not verified, and the guard finds it untried
        have hstored := h.stored user huser (by simp [hhash])
        have hroom := hguard hright
        simp only [inFlight] at hroom
        rw [if_pos ⟨rfl, hright⟩]
        omega
      · rw [if_neg hmine]
        omega
  | @compare i now user code₀ hash guess hi =>
      refine ⟨hwf, fun code => ?_, h.stored⟩
      have honce := h.once code
      obtain ⟨hcomparing, hpending⟩ := counts_compare hi rt true code
      simp only [inFlight] at honce ⊢
      omega
  | @miss i now user code₀ response hi =>
      refine ⟨hwf, fun code => ?_, fun u hu hotp => ?_⟩
      · have honce := h.once code
        obtain ⟨hcomparing, hpending⟩ := counts_answer hi rt true code response
        simp only [inFlight] at honce ⊢
        omega
      · rcases mem_updateUserById h.wf.nodup hu with ⟨hold, -⟩ | ⟨u₀, hu₀, -, rfl⟩
        · exact h.stored u hold hotp
        · exact h.stored u₀ hu₀ hotp
  | @hit i now user code₀ response hi =>
      have hknown := h.wf.known _ (List.mem_of_getElem? hi)
      have hverified : ∀ code, (s.verified ++ [code₀]).count code =
          s.verified.count code + if code₀ = code then 1 else 0 := by
        intro code
        simp [List.count_append, List.count_singleton]
      refine ⟨hwf, fun code => ?_, fun u hu hotp => ?_⟩
      · -- the hit leaves the requests in flight for the verified codes
        have honce := h.once code
        obtain ⟨hcomparing, hpending⟩ := counts_answer hi rt true code response
        simp only [inFlight, and_true] at honce hpending ⊢
        rw [hverified]
        omega
      · rcases mem_updateUserById h.wf.nodup hu with ⟨hold, hne⟩ | ⟨u₀, -, -, rfl⟩
        · -- the hit was on another user's code
          have hother : code₀ ≠ currentCode s.issued u := by
            rintro rfl
            exact hne hknown.1.symm
          simp only [hverified, if_neg hother]
          exact h.stored u hold hotp
        · exact absurd rfl hotp
  | idle => exact h

/-- **A code is one-time** in every interleaving that lets a right guess through
only when no other right guess is in flight on the code. -/
theorem verifyOtp_oneTime (rt : Runtime) {s : RaceState}
    (h : (raceMachine rt).ReachedBy (HitsAlone rt) s) : OneTime s := by
  have hinv : HitInv rt s := by
    refine h.invariant (I := HitInv rt) (fun t ht => ?_)
      fun t a t' hinv hguard hstep => hitInv_step hinv hguard (race_effect hstep)
    obtain ⟨users, hnodup, hcodes, rfl⟩ := ht
    refine ⟨raceWf_start hnodup, fun code => ?_, fun u hu hotp => absurd (hcodes u hu) hotp⟩
    simp [raceStart, inFlight, comparing, pending]
  intro code
  have honce := hinv.once code
  have hjwts := hinv.wf.jwts.count_le code
  omega

/-- A wrong guess followed by the right one meets the guard, and the code yields
one JWT. -/
theorem verifyOtp_oneTime_sample :
    ∃ s : RaceState, (raceMachine sampleRuntime).ReachedBy (HitsAlone sampleRuntime) s ∧
      s.jwts = [⟨js "u1", 1⟩] ∧ OneTime s := by
  have hrun : ((raceMachine sampleRuntime).run (raceStart [sampleHolder])
      sampleVerifications).map (fun s => s.jwts) = some [⟨js "u1", 1⟩] := by
    decide +kernel
  have hadmits : (raceMachine sampleRuntime).Admits (HitsAlone sampleRuntime)
      (raceStart [sampleHolder]) sampleVerifications := by
    refine ⟨trivial, trivial, fun _ => by decide +kernel, trivial, trivial, trivial,
      fun _ => by decide +kernel, trivial, trivial, trivial⟩
  obtain ⟨s, hreached, hjwts⟩ :=
    Machine.ReachedBy.run_map (.start raceStart_sampleHolder) hadmits hrun
  exact ⟨s, hreached, hjwts, verifyOtp_oneTime sampleRuntime hreached⟩

/-- Two requests with the right code that both read before the first of them
writes back are both verified, and two JWTs are issued. -/
theorem verifyOtp_oneTime_concurrent :
    ¬ ∀ s : RaceState, (raceMachine sampleRuntime).Reached s → OneTime s := by
  intro hclaim
  have hrun : ((raceMachine sampleRuntime).run (raceStart [sampleHolder])
      [.issue (js "u1") (sampleIssue 0), sampleVerify "123456", sampleVerify "123456",
        .advance 0 10, .advance 1 10, .advance 0 20, .advance 1 20,
        .advance 0 30, .advance 1 30]).map (fun s => s.jwts) =
      some [⟨js "u1", 1⟩, ⟨js "u1", 1⟩] := by
    decide +kernel
  obtain ⟨s, hreached, hjwts⟩ := Machine.Reached.run_map (.start raceStart_sampleHolder) hrun
  have honce := (hclaim s
    hreached ⟨js "u1", 1⟩).2
  rw [hjwts] at honce
  revert honce
  decide

end Server
end InfinityLabs
