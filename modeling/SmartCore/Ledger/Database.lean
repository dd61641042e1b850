import SmartCore.Lib.Code
import SmartCore.Ledger.LedgerDelta
import Mathlib.Logic.Function.Basic

/-!
# The ledger in the database

The rows of the ledger are in five tables. In front of two of them, accounts and trust lines, there
is a cache of entries, and every change is also noted in a `LedgerDelta`.

Code that works on the ledger is a value of `LedgerM`. It stops in one of four ways: an operation
or a transaction returns false with its result, an exception is thrown, or the process dies of a
failed assertion or a null pointer. The first three unwind the scopes that are open. A scope that
is left without a commit drops the rows written in it (`sqlTransaction`) and the cached entries it
touched (`nested`).

The database also keeps a trace. No code reads it: it says, for each row written, what was in the
row, next to what the frame that is written had been loaded with.
-/

namespace SmartCore.Ledger

open SmartCore.Transactions

/-! ## Tables -/

structure Row (α : Type) where
  entry : α
  lastmodified : ℕ
deriving DecidableEq, Repr

/-- What a write found. -/
inductive Event where
  /-- An account is written over, or deleted: its numbers of sub-entries and of signers. -/
  | account (loaded found : ℕ × ℕ) (updateSigners : Bool)
  /-- A trust line is written over: its balance, and what was added to it since. -/
  | trustLine (loaded found added stored : ℤ)
  /-- A trust line is deleted. -/
  | trustLineDeleted (found : ℤ)
  /-- A payment is what the destination gets and the commission. -/
  | payment (amount received commission : ℤ)
deriving DecidableEq, Repr

/-- The tables. The rows of the table of signers are in the entries of their accounts. -/
structure Database where
  accounts : Table AccountID (Row AccountEntry) := ∅
  trustlines : Table LedgerKey (Row TrustLineEntry) := ∅
  offers : Table ℕ (Row OfferEntry) := ∅
  accountdata : Table LedgerKey DataEntry := ∅
  reversedPayment : Table ℤ ℕ := ∅
  trace : List Event := []

namespace Database

/-- The account, with its signers if it says that it has sub-entries. -/
def selectAccount (db : Database) (id : AccountID) : Option LedgerEntry :=
  db.accounts[id]?.map fun row =>
    ⟨row.lastmodified, .account
      { row.entry with signers := if row.entry.numSubEntries ≠ 0 then row.entry.signers else [] }⟩

def selectTrustLine (db : Database) (k : LedgerKey) : Option LedgerEntry :=
  db.trustlines[k]?.map fun row => ⟨row.lastmodified, .trustLine row.entry⟩

/-- The rows that are read through the cache. -/
def select (db : Database) : LedgerKey → Option LedgerEntry
  | .account id => db.selectAccount id
  | .trustLine id asset => db.selectTrustLine (.trustLine id asset)
  | _ => none

end Database

/-! ## Frames -/

/-- An account in memory, and what it had when it was loaded. -/
structure AccountFrame where
  mAccountEntry : AccountEntry
  lastModified : ℕ := 0
  mUpdateSigners : Bool := true
  loaded : ℕ × ℕ := (0, 0)
deriving DecidableEq, Repr

/-- A trust line in memory, its balance when it was loaded and what was added since. -/
structure TrustFrame where
  mTrustLine : TrustLineEntry
  lastModified : ℕ := 0
  loaded : ℤ := 0
  added : ℤ := 0
deriving DecidableEq, Repr

structure OfferFrame where
  mOffer : OfferEntry
  lastModified : ℕ := 0
deriving DecidableEq, Repr

structure DataFrame where
  mData : DataEntry
  lastModified : ℕ := 0
deriving DecidableEq, Repr

/-! ## State -/

/-- What is stored of a transaction in `txhistory`. -/
structure TransactionHistory where
  result : TransactionResult
  txmeta : TransactionMeta
deriving DecidableEq, Repr

structure LedgerState where
  db : Database := {}
  mEntryCache : List (LedgerKey × Option LedgerEntry) := []
  /-- The deltas that are open: 0 is the one of the ledger, and each is inside the one before. -/
  deltas : ℕ → LedgerDelta := fun _ => {}
  mCurrentLedger : LedgerHeader := {}
  txhistory : List TransactionHistory := []
  -- of the transaction that is applied
  mSigningAccount : Option AccountFrame := none
  mUsedSignatures : List Bool := []
  tm : TransactionMeta := []
  results : List OperationResult := []
  mResult : TransactionResult := .txINTERNAL_ERROR
  -- of the operation that is applied
  mSourceAccount : Option AccountFrame := none
  mUsedSigners : List Signer := []

/-- The ways to stop. -/
inductive Exit where
  /-- the operation returns false -/
  | opFailed (result : OperationResult)
  /-- the transaction returns false -/
  | txFailed (result : TransactionResult)
  | exception (what : String)
  /-- a failed assertion, or a null pointer -/
  | abort
deriving DecidableEq, Repr

abbrev LedgerM := EStateM Exit LedgerState

variable {α : Type}

def assertion (c : Bool) : LedgerM Unit := require c .abort

/-! ## The cache -/

/-- `mEntryCache(4096)` -/
def ENTRY_CACHE_SIZE : ℕ := 4096

def eraseCached (cache : List (LedgerKey × Option LedgerEntry)) (k : LedgerKey) :
    List (LedgerKey × Option LedgerEntry) := cache.filter fun p => p.1 ≠ k

def flushCachedEntry (k : LedgerKey) : LedgerM Unit :=
  modify fun s => { s with mEntryCache := eraseCached s.mEntryCache k }

def putCachedEntry (k : LedgerKey) (p : Option LedgerEntry) : LedgerM Unit :=
  modify fun s =>
    { s with mEntryCache := ((k, p) :: eraseCached s.mEntryCache k).take ENTRY_CACHE_SIZE }

/-- The cached entry, if there is one, moves to the front. -/
def getCachedEntry (k : LedgerKey) : LedgerM (Option (Option LedgerEntry)) := do
  let s ← get
  match s.mEntryCache.lookup k with
  | some p =>
    set { s with mEntryCache := (k, p) :: eraseCached s.mEntryCache k }
    return some p
  | none => return none

/-! ## Deltas -/

def updateDelta (d : ℕ) (f : LedgerDelta → Option LedgerDelta) : LedgerM Unit := do
  let s ← get
  match f (s.deltas d) with
  | some δ => set { s with deltas := Function.update s.deltas d δ }
  | none => throw .abort

theorem wp_updateDelta {Q : Unit → LedgerState → Prop} {E : Exit → LedgerState → Prop}
    {d : ℕ} {f : LedgerDelta → Option LedgerDelta} {s : LedgerState} :
    wp (updateDelta d f) Q E s ↔
      (∀ δ, f (s.deltas d) = some δ → Q () { s with deltas := Function.update s.deltas d δ }) ∧
        (f (s.deltas d) = none → E .abort s) := by
  unfold updateDelta
  rw [wp_bind, wp_get]
  cases f (s.deltas d) <;> simp

def recordEntry (d : ℕ) (entry : LedgerEntry) : LedgerM Unit :=
  updateDelta d fun δ => some (δ.recordEntry entry)

def getHeader (d : ℕ) : LedgerM LedgerHeader := do
  return ((← get).deltas d).mCurrentHeader

def setHeader (d : ℕ) (header : LedgerHeader) : LedgerM Unit :=
  updateDelta d fun δ => some { δ with mCurrentHeader := header }

/-- Commits the delta `d + 1` into the delta `d`. -/
def commit (d : ℕ) : LedgerM Unit := do
  let s ← get
  let inner := s.deltas (d + 1)
  if inner.mPreviousHeaderValue ≠ (s.deltas d).mCurrentHeader then
    throw (.exception "unexpected header state")
  else
    updateDelta d fun δ =>
      (δ.mergeEntries inner).map ({ · with mCurrentHeader := inner.mCurrentHeader })

def rollback (d : ℕ) : LedgerM Unit :=
  modify fun s => { s with mEntryCache := (s.deltas d).touched.foldl eraseCached s.mEntryCache }

/-! ## Scopes -/

/-- Opens a delta inside the delta `d`. -/
def openDelta (d : ℕ) : LedgerM Unit :=
  modify fun s =>
    { s with deltas := Function.update s.deltas (d + 1) (.ofHeader (s.deltas d).mCurrentHeader
      (s.deltas d).mUpdateLastModified) }

/-- A delta inside the delta `d`, committed when `x` returns. -/
def nested (d : ℕ) (x : LedgerM α) : LedgerM α := do
  openDelta d
  tryCatch
    (do
      let a ← x
      commit d
      return a)
    fun e => do
      rollback (d + 1)
      throw e

/-- A transaction of the database, committed when `x` returns. -/
def sqlTransaction (x : LedgerM α) : LedgerM α := do
  let s ← get
  tryCatch x fun e => do
    modify ({ · with db := s.db })
    throw e

/-! ## The ledger manager -/

/-- `(2 + ownerCount) * baseReserve`, in 32 bits. -/
def getMinBalance (ownerCount : ℕ) : LedgerM ℤ := do
  return (((2 + ownerCount) * (← get).mCurrentLedger.baseReserve % 2 ^ 32 : ℕ) : ℤ)

/-- `EntryFrame::touch` -/
def touch (d lastModified : ℕ) : LedgerM ℕ := do
  let δ := (← get).deltas d
  assertion (δ.mUpdateLastModified → δ.mCurrentHeader.ledgerSeq ≠ 0)
  return δ.touchedSeq lastModified

end SmartCore.Ledger
