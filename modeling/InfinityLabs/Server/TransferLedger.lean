import InfinityLabs.Server.TransferRuns

/-!
# What interleaved transfers keep

The money of the bank is conserved in every interleaving.  A self-transfer is
kept out of the ledger only as far as the guard of `executeTransfer` sees it:
the guard compares lower-cased addresses, the lookups and the ledger also trim
them.
-/

namespace InfinityLabs
namespace Server

open Lib

/-- What the ledger rows move to an address. -/
def received (transactions : List Transaction) (email : JsString) : Int :=
  (transactions.map fun t => if t.toEmail = email then t.amount else 0).sum

/-- What the ledger rows move from an address. -/
def sent (transactions : List Transaction) (email : JsString) : Int :=
  (transactions.map fun t => if t.fromEmail = email then t.amount else 0).sum

theorem credited_entries (db : Db) (email : JsString) :
    Books.credited (booksOf db).entries email = received db.transactions email := by
  simp only [Books.credited, booksOf, received, List.map_map]
  rfl

theorem debited_entries (db : Db) (email : JsString) :
    Books.debited (booksOf db).entries email = sent db.transactions email := by
  simp only [Books.debited, booksOf, sent, List.map_map]
  rfl

/-- The committed money is accounted for: the total of the accounts is that of
the opening database, no balance is negative, every balance is its opening
balance plus what the ledger moved to it minus what it moved from it, and the
rows of the ledger have distinct ids. -/
structure MoneyConserved (o : OpeningDb) (db : Db) : Prop where
  total : ∑ email ∈ o.accounts, balanceOf db email =
    ∑ email ∈ o.accounts, balanceOf o.db email
  nonneg : ∀ email u, db.users.doc email = some u → 0 ≤ u.balance
  statement : ∀ email, balanceOf db email = balanceOf o.db email +
    received db.transactions email - sent db.transactions email
  ids_nodup : (db.transactions.map Transaction.id).Nodup

/-- **Money is conserved** in every interleaving of any number of transfers,
whatever their arguments, their conflicts and their aborts. -/
theorem executeTransfer_conserves (toLowerCase : JsString → JsString)
    (o : OpeningDb) {s : TransferState}
    (h : (transferMachine toLowerCase o.db).Reached s) :
    MoneyConserved o s.db := by
  have hsound : Books.Sound o.accounts (balanceOf o.db) (booksOf s.db) :=
    Books.sound_of_reached (fun email _ => o.balance_nonneg email)
      (transferMachine_refines_books o h)
  have hinv : TransferInv toLowerCase o.accounts s := transferInv_reached o h
  refine ⟨hsound.total, ?_, ?_, ?_⟩
  · intro email u hu
    have hmem : email ∈ o.accounts := (hinv.db.users email).mp (by simp [hu])
    have hnonneg := hsound.nonneg email hmem
    simpa [booksOf, balanceOf, hu] using hnonneg
  · intro email
    have hstatement := hsound.statement email
    rwa [credited_entries, debited_entries] at hstatement
  · have hids := hsound.ids_nodup
    simp only [booksOf, List.map_map] at hids
    exact hids

/-! ## A bank of two users -/

/-- A user with the given address and balance. -/
def sampleUser (email : JsString) (balance : Int) : User where
  id := email
  firstName := js "Dana"
  lastName := js "Levi"
  email := email
  password := js "hash"
  phone := js "+972500000000"
  status := .ACTIVE
  verificationToken := none
  otpHash := none
  otpExpiry := none
  otpAttempts := 0
  balance := balance

/-- Two users with 500.00 each, no counter and an empty ledger. -/
def sampleDb : Db where
  users :=
    { doc := fun email =>
        if email = js "a@bank.io" then some (sampleUser email DEFAULT_BALANCE)
        else if email = js "b@bank.io" then some (sampleUser email DEFAULT_BALANCE)
        else none
      stamp := fun _ => 0 }
  counters := { doc := fun _ => none, stamp := fun _ => 0 }
  transactions := []

/-- The sample bank as an opening database. -/
def sampleOpening : OpeningDb where
  db := sampleDb
  accounts := {js "a@bank.io", js "b@bank.io"}
  mem_accounts email := by
    simp only [sampleDb, Finset.mem_insert, Finset.mem_singleton]
    split
    · simp [*]
    · split <;> simp [*]
  balance_nonneg email := by
    simp only [balanceOf, sampleDb]
    split
    · simp [sampleUser, DEFAULT_BALANCE]
    · split <;> simp [sampleUser, DEFAULT_BALANCE]
  no_transactions := rfl

/-- An amount of whole units. -/
def wholeAmount (units : Int) : AmountArg :=
  .finite ⟨units, 0, Or.inl rfl⟩

/-- Two transfers whose steps alternate: the first commits, the second meets
the write conflict and aborts. -/
def conflictingTransfers : List TransferAction :=
  [.call (.text (js "a@bank.io")) (.text (js "b@bank.io")) (wholeAmount 20) none,
    .call (.text (js "b@bank.io")) (.text (js "a@bank.io")) (wholeAmount 30) none,
    .exec 0, .exec 1, .exec 0, .exec 1, .exec 0, .exec 0, .exec 0, .commit 0,
    .exec 1, .abort 1]

/-- The alternating transfers end with one committed row, and the money of the
sample bank is conserved there. -/
theorem executeTransfer_conserves_sample :
    ∃ s : TransferState, (transferMachine asciiLower sampleDb).Reached s ∧
      s.db.transactions.length = 1 ∧ MoneyConserved sampleOpening s.db := by
  have hrun : ((transferMachine asciiLower sampleDb).run ⟨sampleDb, []⟩
      conflictingTransfers).map (fun s => s.db.transactions.length) = some 1 := by
    decide +kernel
  obtain ⟨s, hreached, hrows⟩ := Machine.Reached.run_map (.start rfl) hrun
  exact ⟨s, hreached, hrows, executeTransfer_conserves asciiLower sampleOpening hreached⟩

/-! ## Self-transfers -/

/-- The user documents that the transaction of a call updated, by their stored
addresses, the latest first. -/
def Call.updatedUsers (c : Call) : List JsString :=
  c.session.users.writes.map Prod.fst

/-- No committed row goes from an address to itself, and no committed call
updated one user document twice. -/
def NoSelfTransfer (s : TransferState) : Prop :=
  (∀ t ∈ s.db.transactions, t.fromEmail ≠ t.toEmail) ∧
    ∀ c ∈ s.calls, ∀ row, c.phase = .committed row → c.updatedUsers.Nodup

/-- Addresses that differ in lower case still differ once they are trimmed: the
two arguments of a call are not one address up to surrounding white space. -/
def DifferTrimmed (toLowerCase : JsString → JsString) :
    TransferState → TransferAction → Prop
  | _, .call (.text senderEmail) (.text receiverEmail) _ _ =>
      toLowerCase receiverEmail ≠ toLowerCase senderEmail →
        castEmail toLowerCase receiverEmail ≠ castEmail toLowerCase senderEmail
  | _, _ => True

/-- The invariant behind `NoSelfTransfer`: the stored addresses of every call
differ. -/
structure SelfTransferInv (toLowerCase : JsString → JsString)
    (accounts : Finset JsString) (s : TransferState) : Prop where
  inv : TransferInv toLowerCase accounts s
  differ : ∀ c ∈ s.calls, castEmail toLowerCase c.args.receiverEmail ≠
    castEmail toLowerCase c.args.senderEmail
  free : NoSelfTransfer s

/-- A call of a guarded step has addresses that differ, and updated no document
twice if it has committed. -/
theorem CallOrigin.differ {toLowerCase : JsString → JsString} {accounts : Finset JsString}
    {s : TransferState} {a : TransferAction} {c : Call}
    (horigin : CallOrigin toLowerCase s a c) (h : SelfTransferInv toLowerCase accounts s)
    (hguard : DifferTrimmed toLowerCase s a) :
    castEmail toLowerCase c.args.receiverEmail ≠ castEmail toLowerCase c.args.senderEmail ∧
      ∀ row, c.phase = .committed row → c.updatedUsers.Nodup := by
  cases horigin with
  | kept hmem => exact ⟨h.differ c hmem, h.free.2 c hmem⟩
  | called hcheck =>
      obtain ⟨rfl, rfl, -, hlower⟩ := checkTransfer_ok hcheck
      exact ⟨hguard hlower, fun row hrow => by cases hrow⟩
  | executed hmem hexec =>
      obtain ⟨hargs, hphase⟩ := exec_args hexec
      exact ⟨hargs ▸ h.differ _ hmem, fun row hrow => absurd hrow (hphase row)⟩
  | @aborted _ c₀ hmem => exact ⟨h.differ c₀ hmem, fun row hrow => by cases hrow⟩

/-- A guarded step keeps the stored addresses of every call apart. -/
theorem selfTransferInv_step {toLowerCase : JsString → JsString}
    {accounts : Finset JsString} {s s' : TransferState} {a : TransferAction}
    (h : SelfTransferInv toLowerCase accounts s)
    (hguard : DifferTrimmed toLowerCase s a)
    (hstep : s.step toLowerCase a = some s') :
    SelfTransferInv toLowerCase accounts s' := by
  have hinv' := (step_posts h.inv hstep).1
  cases step_effect hstep with
  | keepsDb hdb hcalls =>
      have key := fun c hc => (hcalls c hc).differ h hguard
      exact ⟨hinv', fun c hc => (key c hc).1, hdb ▸ h.free.1, fun c hc => (key c hc).2⟩
  | @commits c row hmem hphase hcommit hcalls =>
      have hsession := (h.inv.calls c hmem).session (by simp [Call.isOpen, hphase])
      rw [hphase] at hsession
      obtain ⟨-, hcreated, hrow⟩ := hsession.rows
      -- the transaction wrote the two addresses of the call, and nothing else
      have hkeys : c.updatedUsers = [castEmail toLowerCase c.args.receiverEmail,
          castEmail toLowerCase c.args.senderEmail] := by
        simpa [Call.updatedUsers, userOps, View.openOn] using View.writes_keys hsession.users
      refine ⟨hinv', ?_, ?_, ?_⟩
      · intro c' hc'
        rcases hcalls c' hc' with hold | rfl
        · exact h.differ c' hold
        · exact h.differ c hmem
      · intro t ht
        obtain ⟨-, -, hdb⟩ := commitSession_eq_some hcommit
        rw [hdb, hcreated] at ht
        rcases List.mem_append.mp ht with hold | hnew
        · exact h.free.1 t hold
        · rw [List.mem_singleton.mp hnew, hrow]
          exact (h.differ c hmem).symm
      · intro c' hc' row' hrow'
        rcases hcalls c' hc' with hold | rfl
        · exact h.free.2 c' hold row' hrow'
        · show c.updatedUsers.Nodup
          rw [hkeys]
          simpa using h.differ c hmem

/-- **No self-transfer** is committed in a run whose calls never pair one
address with itself up to white space. -/
theorem executeTransfer_noSelfTransfer (toLowerCase : JsString → JsString)
    (o : OpeningDb) {s : TransferState}
    (h : (transferMachine toLowerCase o.db).ReachedBy (DifferTrimmed toLowerCase) s) :
    NoSelfTransfer s := by
  have hinv : SelfTransferInv toLowerCase o.accounts s := by
    refine h.invariant (I := SelfTransferInv toLowerCase o.accounts) (fun t ht => ?_)
      fun t a t' hinv hguard hstep => selfTransferInv_step hinv hguard hstep
    cases ht
    exact ⟨transferInv_start o, by simp, by simp [o.no_transactions], by simp⟩
  exact hinv.free

/-- One transfer between the two users of the sample bank meets the guard and
commits a row without self-transfer. -/
theorem executeTransfer_noSelfTransfer_sample :
    ∃ s : TransferState,
      (transferMachine asciiLower sampleDb).ReachedBy (DifferTrimmed asciiLower) s ∧
        s.db.transactions.length = 1 ∧ NoSelfTransfer s := by
  let labels : List TransferAction :=
    [.call (.text (js "a@bank.io")) (.text (js " B@bank.io")) (wholeAmount 20) none,
      .exec 0, .exec 0, .exec 0, .exec 0, .exec 0, .commit 0]
  have hrun : ((transferMachine asciiLower sampleDb).run ⟨sampleDb, []⟩ labels).map
      (fun s => s.db.transactions.length) = some 1 := by
    decide +kernel
  have hadmits : (transferMachine asciiLower sampleDb).Admits (DifferTrimmed asciiLower)
      ⟨sampleDb, []⟩ labels := by
    refine ⟨fun _ => by decide, trivial, trivial, trivial, trivial, trivial, trivial, trivial⟩
  obtain ⟨s, hreached, hrows⟩ := Machine.ReachedBy.run_map (.start rfl) hadmits hrun
  exact ⟨s, hreached, hrows, executeTransfer_noSelfTransfer asciiLower sampleOpening hreached⟩

/-- The guard of `executeTransfer` lets a padded copy of the sender's own
address pass, and the row it commits goes from that address to itself. -/
theorem executeTransfer_selfTransfer_padded :
    ¬ ∀ s : TransferState, (transferMachine asciiLower sampleDb).Reached s →
      NoSelfTransfer s := by
  intro hclaim
  have hrun : ((transferMachine asciiLower sampleDb).run ⟨sampleDb, []⟩
      [.call (.text (js "a@bank.io")) (.text (js " a@bank.io")) (wholeAmount 20) none,
        .exec 0, .exec 0, .exec 0, .exec 0, .exec 0, .commit 0]).map
      (fun s => s.db.transactions) =
      some [⟨1, js "a@bank.io", js "a@bank.io", 2000, none⟩] := by
    decide +kernel
  obtain ⟨s, hreached, hrows⟩ := Machine.Reached.run_map (.start rfl) hrun
  have hfree := (hclaim s hreached).1
  rw [hrows] at hfree
  exact hfree _ (List.mem_singleton.mpr rfl) rfl

end Server
end InfinityLabs
