import InfinityLabs.Lib.SnapshotStore
import InfinityLabs.Server.User

/-!
# `executeTransfer`

`services/transaction.service.js` moves money inside one Mongo multi-document
transaction.  A user document is addressed by its stored address (the unique
index), the id counter by its `_id`; each `findOneAndUpdate` is one
`View.modify` of the transaction's session.  Rows that the transaction creates
become visible with its commit.

The functions of the source appear one by one, then `transferBody`, the `try`
block up to the commit, is their composition.
-/

namespace InfinityLabs
namespace Server

open Lib

/-- A row of the ledger, as stored. -/
structure Transaction where
  id : Nat
  fromEmail : JsString
  toEmail : JsString
  amount : Int
  description : Option JsString
  deriving DecidableEq, Repr

/-- The committed collections that a transfer touches. -/
structure Db where
  users : Collection JsString User
  counters : Collection JsString Nat
  transactions : List Transaction

/-- A Mongo session with an open transaction. -/
structure Session where
  users : View JsString User
  counters : View JsString Nat
  created : List Transaction

/-- `mongoose.startSession()` and `session.startTransaction()`. -/
def startSession (db : Db) : Session where
  users := View.openOn db.users
  counters := View.openOn db.counters
  created := []

/-- The arguments of `executeTransfer` once they passed its guards; the
description is what mongoose casts the request value to. -/
structure TransferArgs where
  senderEmail : JsString
  receiverEmail : JsString
  amount : Int
  description : Option JsString
  deriving DecidableEq, Repr

/-- The `_id` of the counter document. -/
def counterKey : JsString := js "transactions"

/-- The update of `deductSenderBalance`: the filter `balance: { $gte: amount }`
and `$inc: { balance: -amount }` in one operation. -/
def debit (amount : Int) : Option User → Option User
  | none => none
  | some u =>
      if amount ≤ u.balance then some { u with balance := u.balance - amount }
      else none

/-- The update of `addReceiverBalance`: `$inc: { balance: amount }`. -/
def credit (amount : Int) : Option User → Option User
  | none => none
  | some u => some { u with balance := u.balance + amount }

/-- The upsert of `getNextTransactionId`: `$inc: { seq: 1 }` on the counter, or
on a new one. -/
def nextSeq (seq : Option Nat) : Option Nat :=
  some (seq.getD 0 + 1)

/-- The messages of the failed paths of a ledger row, in schema order. -/
def validateTransaction (t : Transaction) : List String :=
  validateAddress "Sender email is required" "Invalid sender email format"
      t.fromEmail ++
    validateAddress "Receiver email is required" "Invalid receiver email format"
      t.toEmail ++
    (if t.amount < MIN_AMOUNT then ["Amount must be at least 0.01"]
      else if t.amount > MAX_AMOUNT then ["Amount cannot exceed 1,000,000"]
      else if t.amount ≤ 0 then ["Amount must be a positive number"]
      else []) ++
    if (t.description.getD []).length > 500 then
      ["Description cannot exceed 500 characters"]
    else []

/-- `User.findOneAndUpdate(filter, update, { session, new: true })` on the
document with a stored address, and the error thrown when it returns null. -/
def updateUserOrThrow (email : JsString) (update : Option User → Option User)
    (error : JsError) (session : Session) : Except JsError (User × Session) :=
  match session.users.modify email update with
  | none => .error error
  | some (user, users) => .ok (user, { session with users := users })

section

variable (toLowerCase : JsString → JsString)

/-- `transaction.service.js`, `deductSenderBalance`. -/
def deductSenderBalance (senderEmail : JsString) (amount : Int)
    (session : Session) : Except JsError (User × Session) :=
  updateUserOrThrow (castEmail toLowerCase senderEmail) (debit amount)
    (.app "Insufficient funds" 400) session

/-- `transaction.service.js`, `addReceiverBalance`. -/
def addReceiverBalance (receiverEmail : JsString) (amount : Int)
    (session : Session) : Except JsError (User × Session) :=
  updateUserOrThrow (castEmail toLowerCase receiverEmail) (credit amount)
    (.app "Receiver not found" 404) session

/-- `transaction.model.js`, `getNextTransactionId`. -/
def getNextTransactionId (session : Session) : Except JsError (Nat × Session) :=
  match session.counters.modify counterKey nextSeq with
  | none => .error .typeError
  | some (seq, counters) => .ok (seq, { session with counters := counters })

/-- The document that `Transaction.create` builds: the setters of the schema
run on the addresses and on the description. -/
def newTransaction (id : Nat) (args : TransferArgs) : Transaction where
  id := id
  fromEmail := castEmail toLowerCase args.senderEmail
  toEmail := castEmail toLowerCase args.receiverEmail
  amount := args.amount
  description := args.description.map trim

/-- `Transaction.create([…], { session })`. -/
def insertTransaction (id : Nat) (args : TransferArgs) (session : Session) :
    Except JsError (Transaction × Session) :=
  let row := newTransaction toLowerCase id args
  match validateTransaction row with
  | [] => .ok (row, { session with created := session.created ++ [row] })
  | messages => .error (.validation messages)

/-- `transaction.service.js`, `createTransactionRecord`. -/
def createTransactionRecord (args : TransferArgs) (session : Session) :
    Except JsError (Transaction × Session) := do
  let (nextId, session) ← getNextTransactionId session
  insertTransaction toLowerCase nextId args session

/-- The guards of `executeTransfer`, before it opens a session. -/
def checkTransfer (senderEmail receiverEmail : Field) (amount : AmountArg)
    (description : Option JsString) : Except JsError TransferArgs :=
  if receiverEmail.isFalsy then
    .error (.app "Receiver email is required" 400)
  else
    match validateTransactionAmount amount with
    | ⟨true, _, some sanitized⟩ => do
        let receiver ← receiverEmail.asString
        let sender ← senderEmail.asString
        if toLowerCase receiver = toLowerCase sender then
          .error (.app "Cannot transfer to yourself" 400)
        else
          .ok ⟨sender, receiver, sanitized, description⟩
    | amountValidation => .error (.app (amountValidation.error.getD "") 400)

/-- The `try` block of `executeTransfer` up to `commitTransaction`. -/
def transferBody (args : TransferArgs) (session : Session) :
    Except JsError (Transaction × Session) := do
  let (_, session) ← deductSenderBalance toLowerCase args.senderEmail args.amount session
  let (_, session) ← addReceiverBalance toLowerCase args.receiverEmail args.amount session
  createTransactionRecord toLowerCase args session

end

/-- A successful update changed one document of the session's users. -/
theorem updateUserOrThrow_ok {email : JsString}
    {update : Option User → Option User} {error : JsError}
    {session session' : Session} {user : User}
    (h : updateUserOrThrow email update error session = .ok (user, session')) :
    ∃ users, session.users.modify email update = some (user, users) ∧
      session' = { session with users := users } := by
  unfold updateUserOrThrow at h
  split at h
  · cases h
  · rename_i u users hmodify
    cases h
    exact ⟨users, hmodify, rfl⟩

/-- A drawn id is the counter's new value, and it is written to the session. -/
theorem getNextTransactionId_ok {session session' : Session} {id : Nat}
    (h : getNextTransactionId session = .ok (id, session')) :
    ∃ counters, session.counters.modify counterKey nextSeq = some (id, counters) ∧
      session' = { session with counters := counters } := by
  unfold getNextTransactionId at h
  split at h
  · cases h
  · rename_i seq counters hmodify
    cases h
    exact ⟨counters, hmodify, rfl⟩

/-- A created row is the one the arguments describe, appended to the session. -/
theorem insertTransaction_ok {toLowerCase : JsString → JsString} {id : Nat}
    {args : TransferArgs} {session session' : Session} {row : Transaction}
    (h : insertTransaction toLowerCase id args session = .ok (row, session')) :
    row = newTransaction toLowerCase id args ∧
      session' = { session with created := session.created ++ [row] } := by
  unfold insertTransaction at h
  dsimp only at h
  split at h
  · cases h
    exact ⟨rfl, rfl⟩
  · cases h

/-- Arguments that passed the guards carry a validated amount and addresses
that differ in lower case. -/
theorem checkTransfer_ok {toLowerCase : JsString → JsString}
    {senderEmail receiverEmail : Field} {amount : AmountArg}
    {description : Option JsString} {args : TransferArgs}
    (h : checkTransfer toLowerCase senderEmail receiverEmail amount description =
      .ok args) :
    senderEmail = .text args.senderEmail ∧ receiverEmail = .text args.receiverEmail ∧
      (validateTransactionAmount amount).sanitized = some args.amount ∧
      toLowerCase args.receiverEmail ≠ toLowerCase args.senderEmail := by
  unfold checkTransfer at h
  split at h
  · cases h
  · split at h
    · rename_i error sanitized hvalid
      cases receiverEmail with
      | text receiver =>
          cases senderEmail with
          | text sender =>
              by_cases hsame : toLowerCase receiver = toLowerCase sender
              · simp [Field.asString, bind, Except.bind, hsame] at h
              · simp only [Field.asString, bind, Except.bind, hsame, if_false,
                  Except.ok.injEq] at h
                subst h
                exact ⟨rfl, rfl, by rw [hvalid], hsame⟩
          | absent => simp [Field.asString, bind, Except.bind] at h
          | other => simp [Field.asString, bind, Except.bind] at h
      | absent => simp [Field.asString, bind, Except.bind] at h
      | other => simp [Field.asString, bind, Except.bind] at h
    · cases h

/-- `commitTransaction`, unless a document the session wrote was committed by
another transaction since its snapshot. -/
def commitSession (session : Session) (db : Db) : Option Db :=
  if session.users.conflictFree db.users &&
      session.counters.conflictFree db.counters then
    some
      { users := session.users.applyTo db.users
        counters := session.counters.applyTo db.counters
        transactions := db.transactions ++ session.created }
  else none

/-- `transaction.service.js`, `executeTransfer`, without other transactions in
between: the row and the database after the commit, or the error that is thrown
with the database unchanged. -/
def executeTransfer (toLowerCase : JsString → JsString)
    (senderEmail receiverEmail : Field) (amount : AmountArg)
    (description : Option JsString) (db : Db) : Except JsError (Transaction × Db) :=
  match checkTransfer toLowerCase senderEmail receiverEmail amount description with
  | .error e => .error e
  | .ok args =>
      match transferBody toLowerCase args (startSession db) with
      | .error e => .error e
      | .ok (row, session) =>
          match commitSession session db with
          | none => .error .writeConflict
          | some db' => .ok (row, db')

/-- A commit happens free of conflict and installs all writes of the session. -/
theorem commitSession_eq_some {session : Session} {db db' : Db}
    (h : commitSession session db = some db') :
    session.users.conflictFree db.users = true ∧
      session.counters.conflictFree db.counters = true ∧
      db' =
        { users := session.users.applyTo db.users
          counters := session.counters.applyTo db.counters
          transactions := db.transactions ++ session.created } := by
  unfold commitSession at h
  split at h
  · rename_i hfree
    cases h
    rw [Bool.and_eq_true] at hfree
    exact ⟨hfree.1, hfree.2, rfl⟩
  · cases h

end Server
end InfinityLabs
