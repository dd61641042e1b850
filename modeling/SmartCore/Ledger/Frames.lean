import SmartCore.Ledger.Database
import Mathlib.Data.List.Sort

/-!
# Entry frames

Loading and storing the entries of the ledger: `AccountFrame`, `TrustFrame`, `OfferFrame`,
`DataFrame` and `ReversedPaymentFrame`. A frame is a copy of a row. Storing writes the copy back
over the row, whatever happened to the row since, and every store goes to the table, to the delta
it is given, and drops the entry from the cache.

`d` is the delta that a function works in.
-/

namespace SmartCore.Ledger

open SmartCore.Transactions

/-! ## Validity of strings and assets -/

/-- Neither a control character nor outside ASCII. -/
def isString32Valid (str : XString) : Bool := str.all fun c => 32 ≤ c.val ∧ c.val < 127

def isalnum (c : Fin 256) : Bool :=
  (48 ≤ c.val ∧ c.val ≤ 57) ∨ (65 ≤ c.val ∧ c.val ≤ 90) ∨ (97 ≤ c.val ∧ c.val ≤ 122)

/-- The number of characters of a code; zeros can only be trailing. -/
def charcount : List (Fin 256) → Bool → ℕ → Option ℕ
  | [], _, n => some n
  | b :: code, zeros, n =>
    if b = 0 then charcount code true n
    else if zeros then none
    else if isalnum b then charcount code false (n + 1)
    else none

def isAssetValid : Asset → Bool
  | .native => true
  | .alphaNum4 assetCode _ => (charcount assetCode.1 false 0).elim false fun n => 0 < n
  | .alphaNum12 assetCode _ => (charcount assetCode.1 false 0).elim false fun n => 4 < n

/-- `isAssetValid(bankID, cur)`: credit has to be issued by the bank. -/
def isAssetValidOf (bankID : AccountID) (cur : Asset) : Bool :=
  isAssetValid cur ∧ (cur = .native ∨ getIssuer cur = bankID)

/-! ## Accounts -/

namespace AccountFrame

variable (f : AccountFrame)

/-- `AccountFrame(id)`: by default, master key's weight is 1. -/
def ofID (id : AccountID) : AccountFrame :=
  { mAccountEntry := { accountID := id, thresholds := { masterWeight := 1 } } }

/-- A frame of an entry of the cache, or of a row. -/
def ofEntry (e : LedgerEntry) (mUpdateSigners : Bool) : Option AccountFrame :=
  match e.data with
  | .account a =>
    some { mAccountEntry := a, lastModified := e.lastModifiedLedgerSeq, mUpdateSigners,
           loaded := (a.numSubEntries, a.signers.length) }
  | _ => none

def getID : AccountID := f.mAccountEntry.accountID

def mEntry : LedgerEntry := ⟨f.lastModified, .account f.mAccountEntry⟩

def getKey : LedgerKey := .account f.getID

def isValid : Bool :=
  isString32Valid f.mAccountEntry.homeDomain ∧ 0 ≤ f.mAccountEntry.balance ∧
    (f.mAccountEntry.signers.map (·.pubKey)).Pairwise (· ≤ ·)

def isAuthRequired : Bool := f.mAccountEntry.flags &&& AUTH_REQUIRED_FLAG ≠ 0

def isImmutableAuth : Bool := f.mAccountEntry.flags &&& AUTH_IMMUTABLE_FLAG ≠ 0

def getBalance : ℤ := f.mAccountEntry.balance

def getMinimumBalance : LedgerM ℤ := getMinBalance f.mAccountEntry.numSubEntries

/-- Nothing can leave this account if below the reserve. -/
def getBalanceAboveReserve : LedgerM ℤ := do
  let avail := int64 (f.getBalance - (← getMinBalance f.mAccountEntry.numSubEntries))
  return if avail < 0 then 0 else avail

/-- `none` if the balance is not sufficient. -/
def addNumEntries (count : ℤ) : LedgerM (Option AccountFrame) := do
  let newEntriesCount := (f.mAccountEntry.numSubEntries + count).bmod (2 ^ 32)
  if newEntriesCount < 0 then throw (.exception "invalid account state")
  else
    let minBalance ← getMinBalance newEntriesCount.toNat
    if 0 < count ∧ f.getBalance < minBalance then return none
    else
      return some { f with
        mAccountEntry := { f.mAccountEntry with numSubEntries := newEntriesCount.toNat } }

/-- Sorts the signers, so that they can be stored. -/
def setUpdateSigners : AccountFrame :=
  { f with
    mAccountEntry := { f.mAccountEntry with
      signers := f.mAccountEntry.signers.insertionSort fun s₁ s₂ => s₁.pubKey ≤ s₂.pubKey }
    mUpdateSigners := true }

/-- `loadAccount(accountID, db)` -/
def loadAccountDb (accountID : AccountID) : LedgerM (Option AccountFrame) := do
  match ← getCachedEntry (.account accountID) with
  | some p => return p.bind (ofEntry · true)
  | none =>
    match ((← get).db.selectAccount accountID).bind (ofEntry · false) with
    | none =>
      putCachedEntry (.account accountID) none
      return none
    | some f =>
      assertion f.isValid
      putCachedEntry (.account accountID) (some f.mEntry)
      return some f

/-- `loadAccount(delta, accountID, db)` -/
def loadAccount (d : ℕ) (accountID : AccountID) : LedgerM (Option AccountFrame) := do
  match ← loadAccountDb accountID with
  | some f =>
    recordEntry d f.mEntry
    return some f
  | none => return none

/-- The rows of the signers after the loop over both lists: those with the same weight stay. -/
def mergeSigners : List Signer → List Signer → List Signer
  | [], _ => []
  | s :: signers, old =>
    match old.dropWhile (fun o => o.pubKey < s.pubKey) with
    | [] => s :: mergeSigners signers []
    | o :: rest =>
      if s.pubKey = o.pubKey then
        (if s.weight ≠ o.weight then s else o) :: mergeSigners signers rest
      else s :: mergeSigners signers (o :: rest)

def applySigners : LedgerM Unit := do
  let s ← get
  match s.db.accounts[f.getID]? with
  | none => throw (.exception "Could not update data in SQL")
  | some row =>
    let signers := mergeSigners f.mAccountEntry.signers row.entry.signers
    if ¬ (f.mAccountEntry.signers.map (·.pubKey)).Nodup then
      throw (.exception "UNIQUE constraint failed")
    else if signers ≠ row.entry.signers then
      modify fun s => { s with
        db.accounts := s.db.accounts.insert f.getID
          { row with entry := { row.entry with signers } } }
      flushCachedEntry f.getKey

/-- The row of `storeUpdate`, with the signers that the table has. -/
def toRow (signers : List Signer) : Row AccountEntry :=
  ⟨{ f.mAccountEntry with signers }, f.lastModified⟩

/-- The frame after it was stored. -/
def stored : AccountFrame :=
  { f with loaded := (f.mAccountEntry.numSubEntries, f.mAccountEntry.signers.length) }

def storeChange (d : ℕ) : LedgerM AccountFrame := do
  assertion f.isValid
  let f := { f with lastModified := ← touch d f.lastModified }
  flushCachedEntry f.getKey
  match (← get).db.accounts[f.getID]? with
  | none => throw (.exception "Could not update data in SQL")
  | some row =>
    modify fun s => { s with
      db.accounts := s.db.accounts.insert f.getID (f.toRow row.entry.signers)
      db.trace := .account f.loaded (row.entry.numSubEntries, row.entry.signers.length)
        f.mUpdateSigners :: s.db.trace }
    updateDelta d (·.modEntry f.mEntry)
    runIf f.mUpdateSigners f.applySigners
    return f.stored

def storeAdd (d : ℕ) : LedgerM AccountFrame := do
  assertion f.isValid
  let f := { f with lastModified := ← touch d f.lastModified }
  flushCachedEntry f.getKey
  match (← get).db.accounts[f.getID]? with
  | some _ => throw (.exception "UNIQUE constraint failed")
  | none =>
    modify fun s => { s with db.accounts := s.db.accounts.insert f.getID (f.toRow []) }
    updateDelta d (·.addEntry f.mEntry)
    runIf f.mUpdateSigners f.applySigners
    return f.stored

/-- The rows of the signers go with the row of the account. -/
def storeDelete (d : ℕ) : LedgerM Unit := do
  flushCachedEntry f.getKey
  modify fun s => { s with
    db.accounts := s.db.accounts.erase f.getID
    db.trace := (match s.db.accounts[f.getID]? with
      | some row =>
        [.account f.loaded (row.entry.numSubEntries, row.entry.signers.length) true]
      | none => []) ++ s.db.trace }
  updateDelta d (·.deleteEntry f.getKey)

end AccountFrame

/-! ## Trust lines -/

namespace TrustFrame

variable (f : TrustFrame)

def ofEntry (e : LedgerEntry) : Option TrustFrame :=
  match e.data with
  | .trustLine tl =>
    some { mTrustLine := tl, lastModified := e.lastModifiedLedgerSeq, loaded := tl.balance }
  | _ => none

def mEntry : LedgerEntry := ⟨f.lastModified, .trustLine f.mTrustLine⟩

def getKey : LedgerKey := .trustLine f.mTrustLine.accountID f.mTrustLine.asset

/-- Only the issuer may owe. -/
def isValid : Bool :=
  f.mTrustLine.asset ≠ .native ∧ isAssetValid f.mTrustLine.asset ∧
    (0 ≤ f.mTrustLine.balance ∨ f.mTrustLine.accountID = getIssuer f.mTrustLine.asset) ∧
      0 < f.mTrustLine.limit ∧ f.mTrustLine.balance ≤ f.mTrustLine.limit

def getBalance : LedgerM ℤ := do
  assertion f.isValid
  return f.mTrustLine.balance

def isAuthorized : Bool := f.mTrustLine.flags &&& AUTHORIZED_FLAG ≠ 0

def setAuthorized (authorized : Bool) : TrustFrame :=
  { f with mTrustLine := { f.mTrustLine with
      flags := if authorized then f.mTrustLine.flags ||| AUTHORIZED_FLAG
        else f.mTrustLine.flags - (f.mTrustLine.flags &&& AUTHORIZED_FLAG) } }

/-- `none` if the balance cannot be added. -/
def addBalance (delta : ℤ) : Option TrustFrame :=
  let balance := int64 (delta + f.mTrustLine.balance)
  if delta = 0 then some f
  else if !f.isAuthorized then none
  else if f.mTrustLine.limit < balance then none
  else if balance < 0 ∧ f.mTrustLine.accountID ≠ getIssuer f.mTrustLine.asset then none
  else some { f with mTrustLine := { f.mTrustLine with balance }, added := f.added + delta }

def getMaxAmountReceive : ℤ :=
  if f.isAuthorized then int64 (f.mTrustLine.limit - f.mTrustLine.balance) else 0

def loadTrustLine (d : ℕ) (accountID : AccountID) (asset : Asset) :
    LedgerM (Option TrustFrame) := do
  if asset = .native then throw (.exception "XLM TrustLine?")
  else
    match ← getCachedEntry (.trustLine accountID asset) with
    | some p =>
      match p.bind ofEntry with
      | none => return none
      | some f =>
        assertion f.isValid
        return some f
    | none =>
      match ((← get).db.selectTrustLine (.trustLine accountID asset)).bind ofEntry with
      | none =>
        putCachedEntry (.trustLine accountID asset) none
        return none
      | some f =>
        if !f.isValid then throw (.exception "Invalid TrustEntry")
        else
          putCachedEntry (.trustLine accountID asset) (some f.mEntry)
          recordEntry d f.mEntry
          return some f

def loadTrustLineIssuer (d : ℕ) (accountID : AccountID) (asset : Asset) :
    LedgerM (Option TrustFrame × Option AccountFrame) := do
  let line ← loadTrustLine d accountID asset
  let issuer ← AccountFrame.loadAccount d (getIssuer asset)
  return (line, issuer)

/-- The frame after it was stored. -/
def stored : TrustFrame := { f with loaded := f.mTrustLine.balance, added := 0 }

/-- The row of a line: the key is never written. -/
def toRow (row : TrustLineEntry) : Row TrustLineEntry :=
  let tl := f.mTrustLine
  ⟨{ row with balance := tl.balance, limit := tl.limit, flags := tl.flags }, f.lastModified⟩

def storeChange (d : ℕ) : LedgerM TrustFrame := do
  if !f.isValid then throw (.exception "Invalid TrustEntry")
  else
    flushCachedEntry f.getKey
    let f := { f with lastModified := ← touch d f.lastModified }
    match (← get).db.trustlines[f.getKey]? with
    | none => throw (.exception "Could not update data in SQL")
    | some row =>
      modify fun s => { s with
        db.trustlines := s.db.trustlines.insert f.getKey (f.toRow row.entry)
        db.trace :=
          .trustLine f.loaded row.entry.balance f.added f.mTrustLine.balance :: s.db.trace }
      updateDelta d (·.modEntry f.mEntry)
      return f.stored

def storeAdd (d : ℕ) : LedgerM TrustFrame := do
  if !f.isValid then throw (.exception "Invalid TrustEntry")
  else
    flushCachedEntry f.getKey
    let f := { f with lastModified := ← touch d f.lastModified }
    match (← get).db.trustlines[f.getKey]? with
    | some _ => throw (.exception "UNIQUE constraint failed")
    | none =>
      modify fun s => { s with
        db.trustlines := s.db.trustlines.insert f.getKey ⟨f.mTrustLine, f.lastModified⟩ }
      updateDelta d (·.addEntry f.mEntry)
      return f.stored

def storeDelete (d : ℕ) : LedgerM Unit := do
  flushCachedEntry f.getKey
  modify fun s => { s with
    db.trustlines := s.db.trustlines.erase f.getKey
    db.trace := (match s.db.trustlines[f.getKey]? with
      | some row => [.trustLineDeleted row.entry.balance]
      | none => []) ++ s.db.trace }
  updateDelta d (·.deleteEntry f.getKey)

end TrustFrame

/-! ## Offers -/

namespace OfferFrame

variable (f : OfferFrame)

def mEntry : LedgerEntry := ⟨f.lastModified, .offer f.mOffer⟩

def getKey : LedgerKey := .offer f.mOffer.sellerID f.mOffer.offerID

def isValid : Bool := isAssetValid f.mOffer.buying ∧ isAssetValid f.mOffer.selling

def ofRow (row : Row OfferEntry) : OfferFrame := ⟨row.entry, row.lastmodified⟩

def loadOffer (d : ℕ) (sellerID : AccountID) (offerID : ℕ) : LedgerM (Option OfferFrame) := do
  match ((← get).db.offers[offerID]?.filter (·.entry.sellerID = sellerID)).map ofRow with
  | none => return none
  | some f =>
    if !f.isValid then throw (.exception "Invalid asset")
    else
      recordEntry d f.mEntry
      return some f

/-- Best price first, and among the same price the older offer. -/
def better (computePrice : Price → ℤ) (o₁ o₂ : OfferFrame) : Prop :=
  computePrice o₁.mOffer.price < computePrice o₂.mOffer.price ∨
    computePrice o₁.mOffer.price = computePrice o₂.mOffer.price ∧
      o₁.mOffer.offerID ≤ o₂.mOffer.offerID

instance (computePrice : Price → ℤ) : DecidableRel (better computePrice) :=
  fun _ _ => inferInstanceAs (Decidable (_ ∨ _))

/-- The offers that sell `selling` for `buying`. -/
def offersOf (db : Database) (selling buying : Asset) : List OfferFrame :=
  (db.offers.toList.map fun row => ofRow row.2).filter fun o =>
    o.mOffer.selling = selling ∧ o.mOffer.buying = buying

def loadBestOffers (computePrice : Price → ℤ) (numOffers offset : ℕ) (selling buying : Asset) :
    LedgerM (List OfferFrame) := do
  let retOffers := ((offersOf (← get).db selling buying).insertionSort
    (better computePrice)).drop offset |>.take numOffers
  if !retOffers.all (·.isValid) then throw (.exception "Invalid asset")
  else return retOffers

def storeDelete (d : ℕ) : LedgerM Unit := do
  modify fun s => { s with db.offers := s.db.offers.erase f.mOffer.offerID }
  updateDelta d (·.deleteEntry f.getKey)

def storeChange (d : ℕ) : LedgerM OfferFrame := do
  let f := { f with lastModified := ← touch d f.lastModified }
  if !f.isValid then throw (.exception "Invalid asset")
  else
    match (← get).db.offers[f.mOffer.offerID]? with
    | none => throw (.exception "could not update SQL")
    | some row =>
      modify fun s => { s with
        db.offers := s.db.offers.insert f.mOffer.offerID
          ⟨{ f.mOffer with sellerID := row.entry.sellerID }, f.lastModified⟩ }
      updateDelta d (·.modEntry f.mEntry)
      return f

def storeAdd (d : ℕ) : LedgerM OfferFrame := do
  let f := { f with lastModified := ← touch d f.lastModified }
  if !f.isValid then throw (.exception "Invalid asset")
  else
    match (← get).db.offers[f.mOffer.offerID]? with
    | some _ => throw (.exception "UNIQUE constraint failed")
    | none =>
      modify fun s => { s with
        db.offers := s.db.offers.insert f.mOffer.offerID ⟨f.mOffer, f.lastModified⟩ }
      updateDelta d (·.addEntry f.mEntry)
      return f

end OfferFrame

/-! ## Data -/

namespace DataFrame

variable (f : DataFrame)

/-- The table does not have `lastmodified`. -/
def mEntry : LedgerEntry := ⟨f.lastModified, .data f.mData⟩

def getKey : LedgerKey := .data f.mData.accountID f.mData.dataName

def loadData (accountID : AccountID) (dataName : XString) : LedgerM (Option DataFrame) := do
  return (← get).db.accountdata[LedgerKey.data accountID dataName]?.map fun mData => { mData }

def storeDelete (d : ℕ) : LedgerM Unit := do
  modify fun s => { s with db.accountdata := s.db.accountdata.erase f.getKey }
  updateDelta d (·.deleteEntry f.getKey)

def storeChange (d : ℕ) : LedgerM Unit := do
  let f := { f with lastModified := ← touch d f.lastModified }
  match (← get).db.accountdata[f.getKey]? with
  | none => throw (.exception "could not update SQL")
  | some _ =>
    modify fun s => { s with db.accountdata := s.db.accountdata.insert f.getKey f.mData }
    updateDelta d (·.modEntry f.mEntry)

def storeAdd (d : ℕ) : LedgerM Unit := do
  let f := { f with lastModified := ← touch d f.lastModified }
  match (← get).db.accountdata[f.getKey]? with
  | some _ => throw (.exception "UNIQUE constraint failed")
  | none =>
    modify fun s => { s with db.accountdata := s.db.accountdata.insert f.getKey f.mData }
    updateDelta d (·.addEntry f.mEntry)

end DataFrame

/-! ## Reversed payments -/

namespace ReversedPaymentFrame

def «exists» (rID : ℤ) : LedgerM Bool := do
  return rID ∈ (← get).db.reversedPayment

def storeAdd (d : ℕ) (rID : ℤ) (lastModified : ℕ := 0) : LedgerM Unit := do
  let lastModified ← touch d lastModified
  match (← get).db.reversedPayment[rID]? with
  | some _ => throw (.exception "UNIQUE constraint failed")
  | none =>
    modify fun s => { s with db.reversedPayment := s.db.reversedPayment.insert rID lastModified }
    updateDelta d (·.addEntry ⟨lastModified, .reversedPayment ⟨rID⟩⟩)

end ReversedPaymentFrame

end SmartCore.Ledger
