import InfinityLabs.Lib.Bookkeeping
import InfinityLabs.Server.Transfer

/-!
# Interleaved transfers

Any number of `executeTransfer` calls run at once.  Each database operation of
a call is one step; between two steps of one call other calls may run, commit
or abort.  A call may abort in every open phase, and it commits only when the
database finds no write conflict.

A commit is matched by one posting of the double-entry books of
`Lib.Bookkeeping` (`step_commit_posts`), every other step by none.  What holds of
sound books therefore holds of the committed database in every interleaving.
-/

namespace InfinityLabs
namespace Server

open Lib

/-- How far a call has come. -/
inductive Phase where
  | called
  | opened
  | deducted
  | credited
  | numbered (id : Nat)
  | recorded (row : Transaction)
  | committed (row : Transaction)
  | aborted
  deriving DecidableEq, Repr

/-- One call of `executeTransfer` that passed its guards. -/
structure Call where
  args : TransferArgs
  session : Session
  phase : Phase

/-- The committed database and the calls made so far. -/
structure TransferState where
  db : Db
  calls : List Call

/-- What happens next: a new call, or the next operation, the commit or the
abort of call number `i`. -/
inductive TransferAction where
  | call (senderEmail receiverEmail : Field) (amount : AmountArg)
      (description : Option JsString)
  | exec (i : Nat)
  | commit (i : Nat)
  | abort (i : Nat)

/-- The call reaches `phase` with the session of a successful operation; a
thrown error runs the `catch` block, which aborts the transaction. -/
def Call.proceed {β : Type} (c : Call) (result : Except JsError (β × Session))
    (phase : β → Phase) : Call :=
  match result with
  | .ok (value, session) => { c with session := session, phase := phase value }
  | .error _ => { c with phase := .aborted }

/-- The next database operation of a call.  The snapshot is taken by the first
one, on the database as it is then. -/
def Call.exec (toLowerCase : JsString → JsString) (db : Db) (c : Call) :
    Option Call :=
  match c.phase with
  | .called => some { c with session := startSession db, phase := .opened }
  | .opened =>
      some (c.proceed (deductSenderBalance toLowerCase c.args.senderEmail
        c.args.amount c.session) fun _ => .deducted)
  | .deducted =>
      some (c.proceed (addReceiverBalance toLowerCase c.args.receiverEmail
        c.args.amount c.session) fun _ => .credited)
  | .credited => some (c.proceed (getNextTransactionId c.session) .numbered)
  | .numbered id =>
      some (c.proceed (insertTransaction toLowerCase id c.args c.session) .recorded)
  | .recorded _ => none
  | .committed _ => none
  | .aborted => none

/-- The transaction of the call has neither committed nor aborted. -/
def Call.isOpen (c : Call) : Bool :=
  match c.phase with
  | .committed _ => false
  | .aborted => false
  | _ => true

/-- One step of the interleaved calls. -/
def TransferState.step (toLowerCase : JsString → JsString) (s : TransferState) :
    TransferAction → Option TransferState
  | .call senderEmail receiverEmail amount description =>
      match checkTransfer toLowerCase senderEmail receiverEmail amount description with
      | .error _ => some s
      | .ok args =>
          some { s with calls := s.calls ++ [⟨args, startSession s.db, .called⟩] }
  | .exec i =>
      match s.calls[i]? with
      | none => none
      | some c =>
          match c.exec toLowerCase s.db with
          | none => none
          | some c' => some { s with calls := s.calls.set i c' }
  | .commit i =>
      match s.calls[i]? with
      | none => none
      | some c =>
          match c.phase with
          | .recorded row =>
              match commitSession c.session s.db with
              | none => none
              | some db =>
                  some ⟨db, s.calls.set i { c with phase := .committed row }⟩
          | _ => none
  | .abort i =>
      match s.calls[i]? with
      | none => none
      | some c =>
          if c.isOpen then
            some { s with calls := s.calls.set i { c with phase := .aborted } }
          else none

/-- The interleaved calls on a database that starts as `db₀`. -/
def transferMachine (toLowerCase : JsString → JsString) (db₀ : Db) :
    Machine TransferState TransferAction where
  start s := s = ⟨db₀, []⟩
  step := TransferState.step toLowerCase

/-- The database operations of a call that nothing interrupts are the body of
`executeTransfer`. -/
theorem exec_transferBody {toLowerCase : JsString → JsString} (db : Db)
    {args : TransferArgs} {session session' : Session} {row : Transaction}
    (h : transferBody toLowerCase args session = .ok (row, session')) :
    ∃ c₁ c₂ c₃ : Call,
      Call.exec toLowerCase db ⟨args, session, .opened⟩ = some c₁ ∧
        c₁.exec toLowerCase db = some c₂ ∧ c₂.exec toLowerCase db = some c₃ ∧
        c₃.exec toLowerCase db = some ⟨args, session', .recorded row⟩ := by
  simp only [transferBody, createTransactionRecord, bind, Except.bind] at h
  cases hdeduct : deductSenderBalance toLowerCase args.senderEmail args.amount session with
  | error e => simp [hdeduct] at h
  | ok p₁ =>
      simp only [hdeduct] at h
      cases hadd : addReceiverBalance toLowerCase args.receiverEmail args.amount p₁.2 with
      | error e => simp [hadd] at h
      | ok p₂ =>
          simp only [hadd] at h
          cases hid : getNextTransactionId p₂.2 with
          | error e => simp [hid] at h
          | ok p₃ =>
              simp only [hid] at h
              refine ⟨⟨args, p₁.2, .deducted⟩, ⟨args, p₂.2, .credited⟩,
                ⟨args, p₃.2, .numbered p₃.1⟩, ?_, ?_, ?_, ?_⟩
              · simp [Call.exec, Call.proceed, hdeduct]
              · simp [Call.exec, Call.proceed, hadd]
              · simp [Call.exec, Call.proceed, hid]
              · simp [Call.exec, Call.proceed, h]

/-- A call of `executeTransfer` that nothing interrupts is a run of the machine:
it ends with the database that the function commits. -/
theorem executeTransfer_run {toLowerCase : JsString → JsString} {db db' : Db}
    {senderEmail receiverEmail : Field} {amount : AmountArg}
    {description : Option JsString} {row : Transaction}
    (h : executeTransfer toLowerCase senderEmail receiverEmail amount description db =
      .ok (row, db')) :
    ∃ s : TransferState, (transferMachine toLowerCase db).Reached s ∧ s.db = db' := by
  unfold executeTransfer at h
  split at h
  · cases h
  · rename_i args hcheck
    split at h
    · cases h
    · rename_i row' session hbody
      split at h
      · cases h
      · rename_i db'' hcommit
        cases h
        obtain ⟨c₁, c₂, c₃, h₁, h₂, h₃, h₄⟩ := exec_transferBody db hbody
        have hrun : (transferMachine toLowerCase db).run ⟨db, []⟩
            [.call senderEmail receiverEmail amount description, .exec 0, .exec 0,
              .exec 0, .exec 0, .exec 0, .commit 0] =
            some ⟨db', [⟨args, session, .committed row⟩]⟩ := by
          have h₀ : Call.exec toLowerCase db ⟨args, startSession db, .called⟩ =
              some ⟨args, startSession db, .opened⟩ := rfl
          simp [Machine.run, transferMachine, TransferState.step, hcheck, h₀, h₁,
            h₂, h₃, h₄, hcommit]
        exact ⟨_, Machine.Reached.run (.start rfl) hrun, rfl⟩

/-! ## The books of a database -/

/-- The balance of a stored address, in cents. -/
def balanceOf (db : Db) (email : JsString) : Int :=
  ((db.users.doc email).map User.balance).getD 0

/-- A ledger row as an entry of the books. -/
def Transaction.entry (t : Transaction) : Entry JsString Int where
  id := t.id
  source := t.fromEmail
  target := t.toEmail
  amount := t.amount

/-- The books that the users and the ledger of a database amount to. -/
def booksOf (db : Db) : Books JsString Int where
  balance := balanceOf db
  entries := db.transactions.map Transaction.entry

/-- The last id that the counter gave out. -/
def lastId (db : Db) : Nat :=
  (db.counters.doc counterKey).getD 0

/-- A database before its first transfer: finitely many users with non-negative
balances, and an empty ledger. -/
structure OpeningDb where
  db : Db
  accounts : Finset JsString
  mem_accounts : ∀ email, (db.users.doc email).isSome ↔ email ∈ accounts
  balance_nonneg : ∀ email, 0 ≤ balanceOf db email
  no_transactions : db.transactions = []

/-! ## What one call has done so far -/

section

variable (toLowerCase : JsString → JsString)

/-- The user documents a call has updated when it is in `phase`. -/
def userOps (args : TransferArgs) : Phase → List (JsString × (Option User → Option User))
  | .called => []
  | .opened => []
  | .deducted => [(castEmail toLowerCase args.senderEmail, debit args.amount)]
  | _ =>
      [(castEmail toLowerCase args.senderEmail, debit args.amount),
        (castEmail toLowerCase args.receiverEmail, credit args.amount)]

/-- The counter documents a call has updated when it is in `phase`. -/
def counterOps : Phase → List (JsString × (Option Nat → Option Nat))
  | .numbered _ => [(counterKey, nextSeq)]
  | .recorded _ => [(counterKey, nextSeq)]
  | .committed _ => [(counterKey, nextSeq)]
  | _ => []

/-- The id and the rows that belong to a phase of a call. -/
def PhaseRows (args : TransferArgs) (session : Session) : Phase → Prop
  | .numbered id =>
      session.counters.written counterKey = some id ∧ session.created = []
  | .recorded row =>
      session.counters.written counterKey = some row.id ∧
        session.created = [row] ∧ row = newTransaction toLowerCase row.id args
  | _ => session.created = []

/-- An open transaction has done exactly the operations of its phase on its
snapshot, and its snapshot is on track. -/
structure SessionInv (db : Db) (args : TransferArgs) (session : Session)
    (phase : Phase) : Prop where
  users : (View.openOn session.users.base).modifyAll
    (userOps toLowerCase args phase) = some session.users
  users_tracks : session.users.Tracks db.users
  counters : (View.openOn session.counters.base).modifyAll (counterOps phase) =
    some session.counters
  counters_tracks : session.counters.Tracks db.counters
  rows : PhaseRows toLowerCase args session phase

/-- What holds of every call: its amount passed the validation, and while its
transaction is open the session is in order. -/
structure CallInv (db : Db) (c : Call) : Prop where
  amount_pos : MIN_AMOUNT ≤ c.args.amount
  session : c.isOpen = true → SessionInv toLowerCase db c.args c.session c.phase

variable {toLowerCase}

/-- A transaction that has just begun is in order. -/
theorem sessionInv_start (db : Db) (args : TransferArgs) (phase : Phase)
    (hphase : phase = .called ∨ phase = .opened) :
    SessionInv toLowerCase db args (startSession db) phase := by
  rcases hphase with rfl | rfl
  · exact ⟨rfl, View.tracks_openOn _, rfl, View.tracks_openOn _, rfl⟩
  · exact ⟨rfl, View.tracks_openOn _, rfl, View.tracks_openOn _, rfl⟩

/-- Another commit leaves an open transaction in order. -/
theorem SessionInv.commit_other {db db' : Db} {args : TransferArgs}
    {session other : Session} {phase : Phase}
    (h : SessionInv toLowerCase db args session phase)
    (hcommit : commitSession other db = some db') :
    SessionInv toLowerCase db' args session phase := by
  obtain ⟨-, -, rfl⟩ := commitSession_eq_some hcommit
  exact ⟨h.users, h.users_tracks.applyTo _, h.counters,
    h.counters_tracks.applyTo _, h.rows⟩

/-- An update of a user document, appended to those already done, takes a transaction that
is in order to the next phase. -/
theorem SessionInv.updateUser {db : Db} {args : TransferArgs} {session session' : Session}
    {phase next : Phase} {email : JsString} {update : Option User → Option User}
    {error : JsError} {user : User} (h : SessionInv toLowerCase db args session phase)
    (hresult : updateUserOrThrow email update error session = .ok (user, session'))
    (hops : userOps toLowerCase args next = userOps toLowerCase args phase ++ [(email, update)])
    (hcounters : counterOps next = counterOps phase)
    (hrows : ∀ users, PhaseRows toLowerCase args session phase →
      PhaseRows toLowerCase args { session with users := users } next) :
    SessionInv toLowerCase db args session' next := by
  obtain ⟨users, hmodify, rfl⟩ := updateUserOrThrow_ok hresult
  refine ⟨?_, h.users_tracks.modify hmodify, ?_, h.counters_tracks, hrows users h.rows⟩
  · rw [hops, View.modify_base hmodify]
    exact View.modifyAll_snoc h.users hmodify
  · rw [hcounters]
    exact h.counters

/-- A call proceeds in order if the session of a successful operation is in order;
an error aborts it. -/
theorem CallInv.proceed {db : Db} {c : Call} (hamount : MIN_AMOUNT ≤ c.args.amount)
    {β : Type} {result : Except JsError (β × Session)} {phase : β → Phase}
    (hok : ∀ value session, result = .ok (value, session) →
      SessionInv toLowerCase db c.args session (phase value)) :
    CallInv toLowerCase db (c.proceed result phase) := by
  cases result with
  | error e => exact ⟨hamount, fun hopen => by cases hopen⟩
  | ok p =>
      obtain ⟨value, session⟩ := p
      exact ⟨hamount, fun _ => hok value session rfl⟩

/-- Every operation of a call takes an open transaction that is in order to one
that is in order, or aborts it. -/
theorem CallInv.exec {db : Db} {c c' : Call} (h : CallInv toLowerCase db c)
    (hexec : c.exec toLowerCase db = some c') : CallInv toLowerCase db c' := by
  obtain ⟨args, session, phase⟩ := c
  have hamount : MIN_AMOUNT ≤ args.amount := h.amount_pos
  cases phase with
  | called =>
      cases hexec
      exact ⟨hamount, fun _ => sessionInv_start db args .opened (Or.inr rfl)⟩
  | opened =>
      -- an open transaction is in order; the operation appends one update to it
      have hinv := h.session rfl
      cases hexec
      apply CallInv.proceed hamount
      intro user session' hresult
      exact hinv.updateUser hresult rfl rfl fun _ hrows => hrows
  | deducted =>
      have hinv := h.session rfl
      cases hexec
      apply CallInv.proceed hamount
      intro user session' hresult
      exact hinv.updateUser hresult rfl rfl fun _ hrows => hrows
  | credited =>
      have hinv := h.session rfl
      cases hexec
      apply CallInv.proceed hamount
      intro id session' hresult
      obtain ⟨counters, hmodify, rfl⟩ := getNextTransactionId_ok hresult
      have hops : (View.openOn counters.base).modifyAll [(counterKey, nextSeq)] =
          some counters := by
        rw [View.modify_base hmodify]
        exact View.modifyAll_snoc hinv.counters hmodify
      have hdrawn := View.written_modify_self hmodify
      exact ⟨hinv.users, hinv.users_tracks, hops, hinv.counters_tracks.modify hmodify,
        hdrawn, hinv.rows⟩
  | numbered id =>
      have hinv := h.session rfl
      cases hexec
      apply CallInv.proceed hamount
      intro row session' hresult
      obtain ⟨rfl, rfl⟩ := insertTransaction_ok hresult
      obtain ⟨hdrawn, hcreated⟩ := hinv.rows
      replace hcreated : session.created = [] := hcreated
      refine ⟨hinv.users, hinv.users_tracks, hinv.counters, hinv.counters_tracks, hdrawn,
        ?_, rfl⟩
      simp [hcreated]
  -- a recorded call commits or aborts, and a call that has ended does nothing
  | recorded row => cases hexec
  | committed row => cases hexec
  | aborted => cases hexec

/-- An operation that does not commit keeps the arguments of its call. -/
theorem proceed_args {β : Type} (c : Call) (result : Except JsError (β × Session))
    {phase : β → Phase} (hphase : ∀ value row, phase value ≠ .committed row) :
    (c.proceed result phase).args = c.args ∧
      ∀ row, (c.proceed result phase).phase ≠ .committed row := by
  cases result with
  | error e => exact ⟨rfl, fun row h => by cases h⟩
  | ok p => exact ⟨rfl, hphase p.1⟩

/-- An operation keeps the arguments of its call and does not commit it. -/
theorem exec_args {db : Db} {c c' : Call} (h : c.exec toLowerCase db = some c') :
    c'.args = c.args ∧ ∀ row, c'.phase ≠ .committed row := by
  unfold Call.exec at h
  split at h
  · cases h
    exact ⟨rfl, fun row h => by cases h⟩
  all_goals
    cases h
    try exact proceed_args c _ fun _ _ h => by cases h

/-- Another commit leaves a call in order. -/
theorem CallInv.commit_other {db db' : Db} {c : Call} {other : Session}
    (h : CallInv toLowerCase db c) (hcommit : commitSession other db = some db') :
    CallInv toLowerCase db' c :=
  ⟨h.amount_pos, fun hopen => (h.session hopen).commit_other hcommit⟩

/-! ## What a commit does to the books -/

/-- What holds of the committed database: the users are the accounts it was
opened with, and no row has an id that the counter has not given out. -/
structure DbInv (accounts : Finset JsString) (db : Db) : Prop where
  users : ∀ email, (db.users.doc email).isSome ↔ email ∈ accounts
  ids : ∀ t ∈ db.transactions, t.id ≤ lastId db

/-- A debit followed by a credit on a table of user documents. -/
theorem modifyDocs_debit_credit {d d' : JsString → Option User}
    {source target : JsString} {amount : Int}
    (h : modifyDocs d [(source, debit amount), (target, credit amount)] = some d') :
    (∃ u, d source = some u ∧ amount ≤ u.balance) ∧ (d target).isSome ∧
      (∀ x, (d' x).isSome ↔ (d x).isSome) ∧
      ∀ x, ((d' x).map User.balance).getD 0 =
        ((d x).map User.balance).getD 0 - (if x = source then amount else 0) +
          (if x = target then amount else 0) := by
  cases hsource : d source with
  | none => simp [modifyDocs, modifyDoc, hsource, debit] at h
  | some u =>
      by_cases hfunds : amount ≤ u.balance
      · simp only [modifyDocs, modifyDoc, hsource, debit, hfunds, if_true] at h
        by_cases hst : target = source
        · -- the credit reads the debited document
          subst hst
          simp only [Function.update_self, credit, Option.some.injEq] at h
          subst h
          refine ⟨⟨u, rfl, hfunds⟩, by simp [hsource], ?_, ?_⟩
          · intro x
            by_cases hx : x = target
            · simp [hx, hsource]
            · simp [hx]
          · intro x
            by_cases hx : x = target
            · simp [hx, hsource]
            · simp [hx]
        · simp only [Function.update_of_ne hst] at h
          cases htarget : d target with
          | none => simp [htarget, credit] at h
          | some v =>
              simp only [htarget, credit, Option.some.injEq] at h
              subst h
              refine ⟨⟨u, rfl, hfunds⟩, rfl, ?_, ?_⟩
              · intro x
                by_cases hx : x = target
                · simp [hx, htarget]
                · by_cases hx' : x = source
                  · simp [hx', Function.update_of_ne (Ne.symm hst), hsource]
                  · simp [hx, hx']
              · intro x
                by_cases hx : x = target
                · simp [hx, htarget, hst]
                · by_cases hx' : x = source
                  · simp [hx', hsource, Ne.symm hst]
                  · simp [hx, hx']
      · simp [modifyDocs, modifyDoc, hsource, debit, hfunds] at h

/-- At its commit a call has drawn the id behind the last one, whatever the counter
was in its snapshot. -/
theorem SessionInv.commit_id {db : Db} {args : TransferArgs} {session : Session}
    {row : Transaction} (h : SessionInv toLowerCase db args session (.recorded row))
    (hfree : session.counters.conflictFree db.counters = true) :
    row.id = lastId db + 1 ∧
      ((session.counters.applyTo db.counters).doc counterKey).getD 0 = row.id := by
  have hnew := View.applyTo_doc_of_written db.counters h.rows.1
  have hcounters := View.replay h.counters h.counters_tracks hfree
  refine ⟨?_, by simp [hnew]⟩
  simp only [counterOps, modifyDocs, modifyDoc, nextSeq, Option.some.injEq] at hcounters
  rw [← hcounters] at hnew
  simp only [Function.update_self, Option.some.injEq] at hnew
  exact hnew.symm

/-- **A commit posts one admissible entry**: the row that the call recorded. -/
theorem commit_posts {accounts : Finset JsString} {db db' : Db} {c : Call}
    {row : Transaction} (hdb : DbInv accounts db) (hc : CallInv toLowerCase db c)
    (hphase : c.phase = .recorded row)
    (hcommit : commitSession c.session db = some db') :
    Books.Admissible accounts (booksOf db) row.entry ∧
      booksOf db' = (booksOf db).post row.entry ∧ DbInv accounts db' := by
  have hinv := hc.session (by simp [Call.isOpen, hphase])
  rw [hphase] at hinv
  obtain ⟨husersFree, hcountersFree, rfl⟩ := commitSession_eq_some hcommit
  obtain ⟨-, hcreated, hrow⟩ := hinv.rows
  -- the snapshot was free of conflict, so the operations ran on the committed users
  have husers := View.replay hinv.users hinv.users_tracks husersFree
  obtain ⟨⟨u, hu, hfunds⟩, htarget, hdomain, hbalance⟩ :=
    modifyDocs_debit_credit husers
  have hfrom : row.fromEmail = castEmail toLowerCase c.args.senderEmail :=
    congrArg Transaction.fromEmail hrow
  have hto : row.toEmail = castEmail toLowerCase c.args.receiverEmail :=
    congrArg Transaction.toEmail hrow
  have hamount : row.amount = c.args.amount :=
    congrArg Transaction.amount hrow
  obtain ⟨hseq, hlast⟩ := hinv.commit_id hcountersFree
  refine ⟨⟨?_, ?_, ?_, ?_, ?_⟩, ?_, ⟨?_, ?_⟩⟩
  · show row.fromEmail ∈ accounts
    rw [hfrom, ← hdb.users, hu]
    rfl
  · show row.toEmail ∈ accounts
    rw [hto, ← hdb.users]
    exact htarget
  · have := hc.amount_pos
    show 0 ≤ row.amount
    rw [hamount]
    simp only [MIN_AMOUNT] at this
    omega
  · show row.amount ≤ balanceOf db row.fromEmail
    rw [hamount, hfrom, balanceOf, hu]
    exact hfunds
  · -- the id is new: all committed rows have smaller ones
    intro hmem
    obtain ⟨e, he, hid⟩ := List.mem_map.mp hmem
    obtain ⟨t, ht, rfl⟩ := List.mem_map.mp he
    have hle := hdb.ids t ht
    change t.id = row.id at hid
    omega
  · have hentries : (db.transactions ++ c.session.created).map Transaction.entry =
        db.transactions.map Transaction.entry ++ [row.entry] := by
      simp [hcreated]
    have hbalances : ∀ x, balanceOf
        { users := c.session.users.applyTo db.users
          counters := c.session.counters.applyTo db.counters
          transactions := db.transactions ++ c.session.created } x =
        balanceOf db x - (if x = row.fromEmail then row.amount else 0) +
          (if x = row.toEmail then row.amount else 0) := by
      intro x
      rw [hfrom, hto, hamount]
      exact hbalance x
    simp only [booksOf, Books.post, hentries, Books.mk.injEq, and_true]
    funext x
    exact hbalances x
  · intro email
    rw [← hdb.users email]
    exact hdomain email
  · intro t ht
    rw [lastId, hlast]
    rw [hcreated] at ht
    rcases List.mem_append.mp ht with hold | hnew
    · have := hdb.ids t hold
      omega
    · rw [List.mem_singleton.mp hnew]

/-- What holds of the interleaved calls in every reached state. -/
structure TransferInv (toLowerCase : JsString → JsString)
    (accounts : Finset JsString) (s : TransferState) : Prop where
  db : DbInv accounts s.db
  calls : ∀ c ∈ s.calls, CallInv toLowerCase s.db c

/-- Where a call comes from in the state after a step that commits nothing. -/
inductive CallOrigin (toLowerCase : JsString → JsString) (s : TransferState) :
    TransferAction → Call → Prop
  | kept {a : TransferAction} {c : Call} (hmem : c ∈ s.calls) :
      CallOrigin toLowerCase s a c
  | called {senderEmail receiverEmail : Field} {amount : AmountArg}
      {description : Option JsString} {args : TransferArgs}
      (hcheck : checkTransfer toLowerCase senderEmail receiverEmail amount description =
        .ok args) :
      CallOrigin toLowerCase s (.call senderEmail receiverEmail amount description)
        ⟨args, startSession s.db, .called⟩
  | executed {a : TransferAction} {c₀ c : Call} (hmem : c₀ ∈ s.calls)
      (hexec : c₀.exec toLowerCase s.db = some c) : CallOrigin toLowerCase s a c
  | aborted {a : TransferAction} {c₀ : Call} (hmem : c₀ ∈ s.calls) :
      CallOrigin toLowerCase s a { c₀ with phase := .aborted }

/-- A step either leaves the database alone or commits one recorded call. -/
inductive StepEffect (toLowerCase : JsString → JsString) (s : TransferState)
    (a : TransferAction) (s' : TransferState) : Prop
  | keepsDb (hdb : s'.db = s.db)
      (hcalls : ∀ c ∈ s'.calls, CallOrigin toLowerCase s a c)
  | commits {c : Call} {row : Transaction} (hmem : c ∈ s.calls)
      (hphase : c.phase = .recorded row)
      (hcommit : commitSession c.session s.db = some s'.db)
      (hcalls : ∀ c' ∈ s'.calls, c' ∈ s.calls ∨ c' = { c with phase := .committed row })

/-- **Every step has one of the two effects.** -/
theorem step_effect {s s' : TransferState} {a : TransferAction}
    (h : s.step toLowerCase a = some s') : StepEffect toLowerCase s a s' := by
  cases a with
  | call senderEmail receiverEmail amount description =>
      simp only [TransferState.step] at h
      split at h
      · -- a call that its guards reject leaves no trace
        cases h
        exact .keepsDb rfl fun c hc => .kept hc
      · rename_i args hcheck
        cases h
        refine .keepsDb rfl fun c hc => ?_
        rcases List.mem_append.mp hc with hold | hnew
        · exact .kept hold
        · rw [List.mem_singleton.mp hnew]
          exact .called hcheck
  | exec i =>
      simp only [TransferState.step] at h
      cases hget : s.calls[i]? with
      | none => simp [hget] at h
      | some c₀ =>
          have hmem : c₀ ∈ s.calls := List.mem_of_getElem? hget
          cases hexec : c₀.exec toLowerCase s.db with
          | none => simp [hget, hexec] at h
          | some c₁ =>
              simp only [hget, hexec, Option.some.injEq] at h
              subst h
              refine .keepsDb rfl fun c hc => ?_
              rcases List.mem_or_eq_of_mem_set hc with hold | rfl
              · exact .kept hold
              · exact .executed hmem hexec
  | commit i =>
      simp only [TransferState.step] at h
      cases hget : s.calls[i]? with
      | none => simp [hget] at h
      | some c₀ =>
          have hmem : c₀ ∈ s.calls := List.mem_of_getElem? hget
          simp only [hget] at h
          split at h
          · rename_i row hphase
            split at h
            · cases h
            · rename_i db hcommit
              cases h
              exact .commits hmem hphase hcommit fun c' hc' =>
                List.mem_or_eq_of_mem_set hc'
          · cases h
  | abort i =>
      simp only [TransferState.step] at h
      cases hget : s.calls[i]? with
      | none => simp [hget] at h
      | some c₀ =>
          have hmem : c₀ ∈ s.calls := List.mem_of_getElem? hget
          simp only [hget] at h
          split at h
          · cases h
            refine .keepsDb rfl fun c hc => ?_
            rcases List.mem_or_eq_of_mem_set hc with hold | rfl
            · exact .kept hold
            · exact .aborted hmem
          · cases h

/-- A call that comes from a state in order is in order. -/
theorem CallOrigin.inv {s : TransferState} {a : TransferAction} {c : Call}
    (h : CallOrigin toLowerCase s a c)
    (hcalls : ∀ c ∈ s.calls, CallInv toLowerCase s.db c) : CallInv toLowerCase s.db c := by
  cases h with
  | kept hmem => exact hcalls c hmem
  | @called _ _ _ _ args hcheck =>
      have hvalid := (checkTransfer_ok hcheck).2.2.1
      exact ⟨(validateTransactionAmount_sanitized hvalid).1,
        fun _ => sessionInv_start s.db args .called (Or.inl rfl)⟩
  | executed hmem hexec => exact (hcalls _ hmem).exec hexec
  | aborted hmem => exact ⟨(hcalls _ hmem).amount_pos, fun hopen => by cases hopen⟩

/-- Every step keeps the invariant; a commit posts one admissible entry, and
every other step leaves the books as they are. -/
theorem step_posts {accounts : Finset JsString} {s s' : TransferState}
    {a : TransferAction} (hinv : TransferInv toLowerCase accounts s)
    (h : s.step toLowerCase a = some s') :
    TransferInv toLowerCase accounts s' ∧
      (booksOf s'.db = booksOf s.db ∨
        ∃ row : Transaction, Books.Admissible accounts (booksOf s.db) row.entry ∧
          booksOf s'.db = (booksOf s.db).post row.entry) := by
  cases step_effect h with
  | keepsDb hdb hcalls =>
      refine ⟨⟨hdb ▸ hinv.db, fun c hc => ?_⟩, Or.inl (by rw [hdb])⟩
      rw [hdb]
      exact (hcalls c hc).inv hinv.calls
  | @commits c row hmem hphase hcommit hcalls =>
      obtain ⟨hadmissible, hposted, hdb'⟩ :=
        commit_posts hinv.db (hinv.calls c hmem) hphase hcommit
      refine ⟨⟨hdb', fun c' hc' => ?_⟩, Or.inr ⟨row, hadmissible, hposted⟩⟩
      rcases hcalls c' hc' with hold | rfl
      · exact (hinv.calls c' hold).commit_other hcommit
      · exact ⟨(hinv.calls c hmem).amount_pos, fun hopen => by cases hopen⟩

/-- Without calls the opening database is in order. -/
theorem transferInv_start (o : OpeningDb) :
    TransferInv toLowerCase o.accounts ⟨o.db, []⟩ where
  db := ⟨o.mem_accounts, fun t ht => by simp [o.no_transactions] at ht⟩
  calls c hc := by cases hc

/-- The invariant holds in every state that interleaved transfers reach. -/
theorem transferInv_reached (o : OpeningDb) {s : TransferState}
    (h : (transferMachine toLowerCase o.db).Reached s) :
    TransferInv toLowerCase o.accounts s := by
  refine h.invariant (I := TransferInv toLowerCase o.accounts) (fun t ht => ?_)
    fun t a t' hinv _ hstep => (step_posts hinv hstep).1
  cases ht
  exact transferInv_start o

/-- Before the first transfer the books are freshly opened. -/
theorem booksOf_opening (o : OpeningDb) :
    booksOf o.db = Books.opening (balanceOf o.db) := by
  simp [booksOf, Books.opening, o.no_transactions]

/-- **Refinement.**  The books of every database that interleaved transfers can
commit are reached by admissible postings from the opening books. -/
theorem transferMachine_refines_books (o : OpeningDb) {s : TransferState}
    (h : (transferMachine toLowerCase o.db).Reached s) :
    (Books.machine o.accounts (balanceOf o.db)).Reached (booksOf s.db) := by
  have hsimulated : ∃ b, (Books.machine o.accounts (balanceOf o.db)).Reached b ∧
      TransferInv toLowerCase o.accounts s ∧ b = booksOf s.db := by
    refine h.simulated (N := Books.machine o.accounts (balanceOf o.db))
      (R := fun t b => TransferInv toLowerCase o.accounts t ∧ b = booksOf t.db)
      (fun t ht => ?_) fun t b a t' hrel _ hstep => ?_
    · cases ht
      exact ⟨_, rfl, transferInv_start o, (booksOf_opening o).symm⟩
    · obtain ⟨hinv, rfl⟩ := hrel
      obtain ⟨hinv', hsame | ⟨row, hadmissible, hposted⟩⟩ := step_posts hinv hstep
      · exact Or.inl ⟨hinv', hsame.symm⟩
      · exact Or.inr ⟨row.entry, _, Books.machine_step_of_admissible hadmissible,
          hinv', hposted.symm⟩
  obtain ⟨b, hb, -, rfl⟩ := hsimulated
  exact hb

end

end Server
end InfinityLabs
