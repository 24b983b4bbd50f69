import InfinityLabs.Server.Auth

/-!
# The second factor follows the first

`login` is step 1 of 2: its password check issues a code, and `verifyOtp` turns
the code into a JWT.  On the history of a run this reads: since the user's
account was created and since the user's previous JWT, a password check passed,
and the code in force when the JWT is issued was issued after that check.

`resendOtp` issues a code without a check of its own.  Runs that resend only
after a passed check keep the property; one resend without it breaks it.
-/

namespace InfinityLabs
namespace Server

open Lib

/-! ## Reading a history -/

/-- The user an event is about. -/
def AuthEvent.user : AuthEvent → JsString
  | .accountCreated id => id
  | .passwordPassed id => id
  | .otpIssued id _ => id
  | .jwtIssued id _ => id

/-- The creation of the account or a JWT: a new login is due from here on. -/
def AuthEvent.OpensLogin (id : JsString) : AuthEvent → Prop
  | .accountCreated who => who = id
  | .jwtIssued who _ => who = id
  | .passwordPassed _ => False
  | .otpIssued _ _ => False

/-- The code in force after a history: the last one issued for the user. -/
def codeInForce (id : JsString) (history : List AuthEvent) : Option JsString :=
  history.foldl (fun code event =>
    match event with
    | .otpIssued who hash => if who = id then some hash else code
    | _ => code) none

/-- `since` is what happened after a passed password check of the user, and no
new login fell due in it. -/
def SincePassword (history : List AuthEvent) (id : JsString) (since : List AuthEvent) :
    Prop :=
  (∃ earlier, history = earlier ++ .passwordPassed id :: since) ∧
    ∀ event ∈ since, ¬ event.OpensLogin id

/-- The user's last login passed its password check and is not spent yet. -/
def PasswordArmed (history : List AuthEvent) (id : JsString) : Prop :=
  ∃ since, SincePassword history id since

/-- The code is the one in force, and was issued after a passed check that is
not spent yet. -/
def PasswordBacked (history : List AuthEvent) (id hash : JsString) : Prop :=
  ∃ since, SincePassword history id since ∧ codeInForce id since = some hash

/-- Every JWT of a history was issued on a code that a password check backs. -/
def SecondFactor (history : List AuthEvent) : Prop :=
  ∀ before after id hash, history = before ++ .jwtIssued id hash :: after →
    PasswordBacked before id hash

/-- Events about other users leave the code in force alone. -/
theorem codeInForce_append_others {id : JsString} {history events : List AuthEvent}
    (hothers : ∀ event ∈ events, event.user ≠ id) :
    codeInForce id (history ++ events) = codeInForce id history := by
  unfold codeInForce
  rw [List.foldl_append]
  generalize List.foldl _ none history = code
  induction events generalizing code with
  | nil => rfl
  | cons event rest ih =>
      have hrest : ∀ event ∈ rest, event.user ≠ id := fun e he =>
        hothers e (List.mem_cons_of_mem _ he)
      have hevent : event.user ≠ id := hothers event List.mem_cons_self
      rw [List.foldl_cons, ih hrest]
      cases event with
      | otpIssued who hash => exact if_neg hevent
      | _ => rfl

/-- An issued code is the one in force. -/
theorem codeInForce_snoc_otpIssued (id hash : JsString) (history : List AuthEvent) :
    codeInForce id (history ++ [.otpIssued id hash]) = some hash := by
  simp [codeInForce, List.foldl_append]

/-- What follows a passed check may grow by events that open no login. -/
theorem SincePassword.append {history since events : List AuthEvent} {id : JsString}
    (h : SincePassword history id since)
    (hevents : ∀ event ∈ events, ¬ event.OpensLogin id) :
    SincePassword (history ++ events) id (since ++ events) := by
  obtain ⟨⟨earlier, rfl⟩, hsince⟩ := h
  refine ⟨⟨earlier, by simp⟩, fun event hmem => ?_⟩
  rcases List.mem_append.mp hmem with hold | hnew
  · exact hsince event hold
  · exact hevents event hnew

/-- Only events about the user open a login of the user. -/
theorem AuthEvent.OpensLogin.user_eq {id : JsString} {event : AuthEvent}
    (h : event.OpensLogin id) : event.user = id := by
  cases event with
  | accountCreated who => exact h
  | jwtIssued who hash => exact h
  | passwordPassed who => cases h
  | otpIssued who hash => cases h

/-- Events about other users keep a code backed. -/
theorem PasswordBacked.append_others {history events : List AuthEvent}
    {id hash : JsString} (h : PasswordBacked history id hash)
    (hothers : ∀ event ∈ events, event.user ≠ id) :
    PasswordBacked (history ++ events) id hash := by
  obtain ⟨since, hsince, hcode⟩ := h
  refine ⟨since ++ events, hsince.append fun event hmem hopens => ?_, ?_⟩
  · exact hothers event hmem hopens.user_eq
  · rw [codeInForce_append_others hothers]
    exact hcode

/-- A code issued to an armed user is backed. -/
theorem PasswordArmed.issue {history : List AuthEvent} {id : JsString}
    (h : PasswordArmed history id) (hash : JsString) :
    PasswordBacked (history ++ [.otpIssued id hash]) id hash := by
  obtain ⟨since, hsince⟩ := h
  refine ⟨since ++ [.otpIssued id hash], hsince.append ?_, ?_⟩
  · intro event hmem hopens
    rw [List.mem_singleton.mp hmem] at hopens
    exact hopens
  · exact codeInForce_snoc_otpIssued id hash since

/-- A passed password check arms its user. -/
theorem passwordArmed_snoc (history : List AuthEvent) (id : JsString) :
    PasswordArmed (history ++ [.passwordPassed id]) id :=
  ⟨[], ⟨history, rfl⟩, by simp⟩

/-- Events other than a JWT need no backing. -/
theorem SecondFactor.append {history events : List AuthEvent} (h : SecondFactor history)
    (hevents : ∀ id hash, .jwtIssued id hash ∉ events) :
    SecondFactor (history ++ events) := by
  intro before after id hash hsplit
  -- the JWT stands in the old part of the history, or among the new events
  rcases List.append_eq_append_iff.mp hsplit with ⟨more, hbefore, hnew⟩ | ⟨more, hold, hnew⟩
  · exact absurd (by rw [hnew]; simp) (hevents id hash)
  · cases more with
    | nil =>
        rw [List.nil_append] at hnew
        exact absurd (by rw [← hnew]; exact List.mem_cons_self) (hevents id hash)
    | cons event rest =>
        rw [List.cons_append, List.cons.injEq] at hnew
        obtain ⟨rfl, rfl⟩ := hnew
        exact h before rest id hash hold

/-- A JWT on a backed code keeps the property. -/
theorem SecondFactor.snoc_jwt {history : List AuthEvent} {id hash : JsString}
    (h : SecondFactor history) (hbacked : PasswordBacked history id hash) :
    SecondFactor (history ++ [.jwtIssued id hash]) := by
  intro before after id' hash' hsplit
  rcases List.append_eq_append_iff.mp hsplit with ⟨more, hbefore, hnew⟩ | ⟨more, hold, hnew⟩
  · cases more with
    | nil =>
        rw [List.nil_append, List.cons.injEq] at hnew
        obtain ⟨hjwt, -⟩ := hnew
        cases hjwt
        rw [hbefore, List.append_nil]
        exact hbacked
    | cons event rest => simp at hnew
  · cases more with
    | nil =>
        rw [List.nil_append, List.cons.injEq] at hnew
        obtain ⟨hjwt, -⟩ := hnew
        cases hjwt
        rw [hold, List.append_nil] at hbacked
        exact hbacked
    | cons event rest =>
        rw [List.cons_append, List.cons.injEq] at hnew
        obtain ⟨rfl, -⟩ := hnew
        exact h before rest id' hash' hold

/-! ## The invariant of the runs -/

/-- A request to resend a code to an active user comes when the user's last
login has passed its check and is not spent yet. -/
def ResendsAfterPassword (rt : Runtime) : AuthState → AuthRequest → Prop
  | s, .resendOtp (.text email) _ =>
      ∀ user, findUserByEmail rt s.users email = some user → user.status = .ACTIVE →
        PasswordArmed s.history user.id
  | _, _ => True

/-- Users have distinct ids, and a stored code is backed by a password check. -/
structure FactorInv (s : AuthState) : Prop where
  nodup : (s.users.map User.id).Nodup
  backed : ∀ u ∈ s.users, ∀ hash, u.otpHash = some hash →
    PasswordBacked s.history u.id hash
  secondFactor : SecondFactor s.history

/-- An update of one user, reported by events about that user, keeps the
invariant if it leaves a backed code or none. -/
theorem FactorInv.update {users : List User} {history events : List AuthEvent}
    (h : FactorInv ⟨users, history⟩) {id : JsString} {update : User → User}
    (hid : ∀ u, (update u).id = u.id) (hevents : ∀ event ∈ events, event.user = id)
    (hcode : ∀ u hash, (update u).otpHash = some hash →
      PasswordBacked (history ++ events) id hash)
    (hsecond : SecondFactor (history ++ events)) :
    FactorInv ⟨updateUserById users id update, history ++ events⟩ := by
  have hids : (updateUserById users id update).map User.id = users.map User.id :=
    map_updateFirst _ hid users
  refine ⟨hids ▸ h.nodup, fun u hu hash hhash => ?_, hsecond⟩
  have hdocs : u ∈ updateFirst (fun u => u.id == id) update users := hu
  rcases mem_updateFirst_key h.nodup hdocs with ⟨hold, hne⟩ | ⟨u₀, -, rfl, rfl⟩
  · apply (h.backed u hold hash hhash).append_others
    intro event hmem
    rw [hevents event hmem]
    exact Ne.symm hne
  · rw [hid]
    exact hcode u₀ hash hhash

/-- A code saved for an armed user keeps the invariant. -/
theorem FactorInv.issue {rt : Runtime} {users : List User}
    {history events : List AuthEvent} (h : FactorInv ⟨users, history⟩) {id : JsString}
    (issue : OtpIssue) (harmed : PasswordArmed (history ++ events) id)
    (hsecond : SecondFactor (history ++ events))
    (hevents : ∀ event ∈ events, event.user = id) :
    FactorInv ⟨saveOtp rt users id issue, history ++ (events ++
      [.otpIssued id (rt.bcryptHash issue.draw.text issue.salt)])⟩ := by
  refine h.update (fun _ => rfl) (fun event hmem => ?_) (fun u hash hhash => ?_) ?_
  · rcases List.mem_append.mp hmem with hold | hissued
    · exact hevents event hold
    · rw [List.mem_singleton.mp hissued]
      rfl
  · cases hhash
    rw [← List.append_assoc]
    exact harmed.issue _
  · rw [← List.append_assoc]
    exact hsecond.append (by simp)

/-- **A guarded request keeps the invariant.** -/
theorem factorInv_step {rt : Runtime} {s s' : AuthState} {request : AuthRequest}
    (h : FactorInv s) (hguard : ResendsAfterPassword rt s request)
    (hstep : (authMachine rt).step s request = some s') : FactorInv s' := by
  obtain ⟨users, history⟩ := s
  cases hstep
  have heffect := handle_effect rt users request
  generalize handle rt users request = handled at heffect
  obtain ⟨response, users', events⟩ := handled
  cases heffect with
  | quiet hkeeps =>
      -- codes that are still stored were stored before
      obtain ⟨hids, hcodes⟩ := hkeeps
      simp only [List.append_nil]
      refine ⟨hids ▸ h.nodup, fun u hu hash hhash => ?_, h.secondFactor⟩
      obtain ⟨u₀, hu₀, hid, hotp⟩ := hcodes u hu hash hhash
      exact hid ▸ h.backed u₀ hu₀ hash hotp
  | @created _ user hfresh hotp =>
      refine ⟨?_, fun u hu hash hhash => ?_, h.secondFactor.append (by simp)⟩
      · show ((users ++ [user]).map User.id).Nodup
        rw [List.map_append]
        exact List.nodup_append.mpr ⟨h.nodup, by simp, fun id hid id' hid' => by
          rw [List.mem_singleton.mp hid']
          rintro rfl
          exact hfresh hid⟩
      · rcases List.mem_append.mp hu with hold | hnew
        · -- the new account is another user's
          apply (h.backed u hold hash hhash).append_others
          intro event hmem heq
          rw [List.mem_singleton.mp hmem] at heq
          change user.id = u.id at heq
          exact hfresh (heq ▸ List.mem_map_of_mem hold)
        · rw [List.mem_singleton.mp hnew, hotp] at hhash
          cases hhash
  | @loggedIn _ user hmem issue =>
      exact h.issue issue (passwordArmed_snoc history user.id)
        (h.secondFactor.append (by simp)) fun event hpassed => by
          rw [List.mem_singleton.mp hpassed]
          rfl
  | resent issue hfound hactive =>
      -- only the guard says that a password check precedes a resent code
      have harmed := hguard _ hfound hactive
      rw [← List.append_nil history] at harmed
      have hsecond : SecondFactor (history ++ []) := by
        rw [List.append_nil]
        exact h.secondFactor
      exact h.issue issue harmed hsecond (by simp)
  | @verified _ user hash hmem hotp =>
      -- the JWT spends the login, and no code is left that needs it
      refine h.update (fun _ => rfl) (fun event hevent => ?_) (fun _ _ hcode => ?_)
        (h.secondFactor.snoc_jwt (h.backed user hmem hash hotp))
      · rw [List.mem_singleton.mp hevent]
        rfl
      · cases hcode

/-- **The second factor follows the first** in every run that resends a code only
after a password check that is not spent yet. -/
theorem verifyOtp_secondFactor (rt : Runtime) {s : AuthState}
    (h : (authMachine rt).ReachedBy (ResendsAfterPassword rt) s) :
    SecondFactor s.history := by
  have hinv : FactorInv s := by
    refine h.invariant (I := FactorInv) (fun t ht => ?_)
      fun t request t' hinv hguard hstep => factorInv_step hinv hguard hstep
    cases ht
    exact ⟨by simp, by simp, by simp [SecondFactor]⟩
  exact hinv.secondFactor

/-! ## Sample runs -/

/-- A signup at `a@bank.io` and the confirmation of its address. -/
def sampleSignup : List AuthRequest :=
  [.signup ⟨.text (js "Ada"), .text (js "Byron"), .text (js "a@bank.io"),
      .text (js "12345678"), .text (js "Secret12")⟩ ⟨js "u1", js "s", js "t"⟩,
    .verifyEmail (.text (js "t"))]

/-- A login with one resent code meets the guard and issues a backed JWT. -/
theorem verifyOtp_secondFactor_sample :
    ∃ s : AuthState, (authMachine sampleRuntime).ReachedBy
        (ResendsAfterPassword sampleRuntime) s ∧
      s.history.length = 5 ∧ SecondFactor s.history := by
  let labels : List AuthRequest := sampleSignup ++
    [.login (.text (js "a@bank.io")) (.text (js "Secret12")) (sampleIssue 0),
      .resendOtp (.text (js "a@bank.io")) (sampleIssue 1000),
      .verifyOtp (.text (js "a@bank.io")) (.text (js "123456")) 2000]
  have hrun : ((authMachine sampleRuntime).run ⟨[], []⟩ labels).map
      (fun s => s.history.length) = some 5 := by
    decide +kernel
  have hadmits : (authMachine sampleRuntime).Admits (ResendsAfterPassword sampleRuntime)
      ⟨[], []⟩ labels := by
    refine ⟨trivial, trivial, trivial, fun user hfound _ => ?_, trivial, trivial⟩
    have hid := congrArg (Option.map User.id) hfound
    rw [show Option.map User.id _ = some (js "u1") by decide +kernel] at hid
    rw [← Option.some.inj hid]
    exact ⟨[.otpIssued (js "u1") (js "s$123456")],
      ⟨[.accountCreated (js "u1")], by decide +kernel⟩, by simp [AuthEvent.OpensLogin]⟩
  obtain ⟨s, hreached, hlength⟩ := Machine.ReachedBy.run_map (.start rfl) hadmits hrun
  exact ⟨s, hreached, hlength, verifyOtp_secondFactor sampleRuntime hreached⟩

/-- A resent code needs no password: a signup, a resent code and its
verification issue a JWT to a user who never logged in. -/
theorem verifyOtp_withoutPassword :
    ¬ ∀ s : AuthState, (authMachine sampleRuntime).Reached s → SecondFactor s.history := by
  intro hclaim
  have hrun : ((authMachine sampleRuntime).run ⟨[], []⟩ (sampleSignup ++
      [.resendOtp (.text (js "a@bank.io")) (sampleIssue 0),
        .verifyOtp (.text (js "a@bank.io")) (.text (js "123456")) 1000])).map
      (fun s => s.history) =
      some [.accountCreated (js "u1"), .otpIssued (js "u1") (js "s$123456"),
        .jwtIssued (js "u1") (js "s$123456")] := by
    decide +kernel
  obtain ⟨s, hreached, hhistory⟩ := Machine.Reached.run_map (.start rfl) hrun
  have hfactor := hclaim s hreached
  rw [hhistory] at hfactor
  obtain ⟨since, ⟨⟨earlier, hbefore⟩, -⟩, -⟩ := hfactor
    [.accountCreated (js "u1"), .otpIssued (js "u1") (js "s$123456")] [] _ _ rfl
  have hpassed : .passwordPassed (js "u1") ∈
      [AuthEvent.accountCreated (js "u1"), .otpIssued (js "u1") (js "s$123456")] := by
    rw [hbefore]
    simp
  exact absurd hpassed (by decide)

end Server
end InfinityLabs
