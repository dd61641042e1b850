import SmartCore.Lib.Table
import SmartCore.Transactions.Types

/-!
# Ledger deltas

A `LedgerDelta` collects what is done to the ledger inside one scope: the entries created,
modified and deleted, what they were before, and the header as it is changed. When a delta is
committed it is merged into the delta around it; when its scope ends without a commit, the entries
it touched are dropped from the cache.

The operations on a delta are partial: `none` is a failed assertion.
-/

namespace SmartCore.Ledger

open SmartCore.Transactions

/-- The fields of the header that closing a ledger reads or writes; hashes are left out. -/
structure LedgerHeader where
  ledgerVersion : ℕ := 0
  closeTime : ℕ := 0
  ledgerSeq : ℕ := 0
  totalCoins : ℤ := 0
  feePool : ℤ := 0
  inflationSeq : ℕ := 0
  idPool : ℕ := 0
  baseFee : ℕ := 0
  baseReserve : ℕ := 0
  maxTxSetSize : ℕ := 0
deriving DecidableEq, Repr

instance : Std.LawfulEqOrd LedgerKey where
  eq_of_compare := compare_eq_iff_eq.mp

structure LedgerDelta where
  mCurrentHeader : LedgerHeader := {}
  mPreviousHeaderValue : LedgerHeader := {}
  mNew : Table LedgerKey LedgerEntry := ∅
  mMod : Table LedgerKey LedgerEntry := ∅
  mDelete : Table LedgerKey Unit := ∅
  mPrevious : Table LedgerKey LedgerEntry := ∅
  mUpdateLastModified : Bool := true

namespace LedgerDelta

variable (δ : LedgerDelta)

/-- A delta over a header that is shared with whatever is around it. -/
def ofHeader (header : LedgerHeader) (mUpdateLastModified : Bool := true) : LedgerDelta :=
  { mCurrentHeader := header, mPreviousHeaderValue := header, mUpdateLastModified }

/-- The ledger that an entry is modified in when it is stored, if the field is updated. -/
def touchedSeq (lastModified : ℕ) : ℕ :=
  if δ.mUpdateLastModified then δ.mCurrentHeader.ledgerSeq else lastModified

def addEntry (entry : LedgerEntry) : Option LedgerDelta :=
  let k := LedgerEntryKey entry
  if k ∈ δ.mDelete then
    -- delete + new is an update
    some { δ with mDelete := δ.mDelete.erase k, mMod := δ.mMod.insert k entry }
  else if k ∈ δ.mNew ∨ k ∈ δ.mMod then none
  else some { δ with mNew := δ.mNew.insert k entry }

def deleteEntry (k : LedgerKey) : Option LedgerDelta :=
  if k ∈ δ.mNew then
    -- new + delete: don't add it in the first place
    some { δ with mNew := δ.mNew.erase k }
  else if k ∈ δ.mDelete then none
  else some { δ with mMod := δ.mMod.erase k, mDelete := δ.mDelete.insert k () }

def modEntry (entry : LedgerEntry) : Option LedgerDelta :=
  let k := LedgerEntryKey entry
  if k ∈ δ.mMod then some { δ with mMod := δ.mMod.insert k entry }
  else if k ∈ δ.mNew then
    -- new + mod is new, with the latest value
    some { δ with mNew := δ.mNew.insert k entry }
  else if k ∈ δ.mDelete then none
  else some { δ with mMod := δ.mMod.insert k entry }

/-- Keeps the old one around. -/
def recordEntry (entry : LedgerEntry) : LedgerDelta :=
  { δ with mPrevious := δ.mPrevious.insertIfNew (LedgerEntryKey entry) entry }

/-- Records what `other` had recorded for `k`. -/
def recordPrevious (other : LedgerDelta) (k : LedgerKey) : LedgerDelta :=
  match other.mPrevious[k]? with
  | some entry => δ.recordEntry entry
  | none => δ

def mergeDeleted (other : LedgerDelta) : List LedgerKey → Option LedgerDelta :=
  List.foldlM (fun δ k => (δ.deleteEntry k).map (·.recordPrevious other k)) δ

def mergeNew : List LedgerEntry → Option LedgerDelta :=
  List.foldlM (fun δ entry => δ.addEntry entry) δ

def mergeModified (other : LedgerDelta) : List (LedgerKey × LedgerEntry) → Option LedgerDelta :=
  List.foldlM (fun δ m => (δ.modEntry m.2).map (·.recordPrevious other m.1)) δ

def mergeEntries (other : LedgerDelta) : Option LedgerDelta := do
  let δ ← δ.mergeDeleted other other.mDelete.keys
  let δ ← δ.mergeNew (other.mNew.toList.map (·.2))
  δ.mergeModified other other.mMod.toList

def getLiveEntries : List LedgerEntry := δ.mNew.toList.map (·.2) ++ δ.mMod.toList.map (·.2)

def getDeadEntries : List LedgerKey := δ.mDelete.keys

/-- The keys that are dropped from the cache when the delta is not committed. -/
def touched : List LedgerKey := δ.mDelete.keys ++ δ.mNew.keys ++ δ.mMod.keys

/-- If the old value is from a previous ledger it is emitted. -/
def addCurrentMeta (k : LedgerKey) : List LedgerEntryChange :=
  match δ.mPrevious[k]? with
  | some e =>
    if e.lastModifiedLedgerSeq ≠ δ.mCurrentHeader.ledgerSeq then [.LEDGER_ENTRY_STATE e] else []
  | none => []

def getChanges : List LedgerEntryChange :=
  δ.mNew.toList.map (fun k => .LEDGER_ENTRY_CREATED k.2) ++
    δ.mMod.toList.flatMap (fun k => δ.addCurrentMeta k.1 ++ [.LEDGER_ENTRY_UPDATED k.2]) ++
      δ.mDelete.keys.flatMap fun k => δ.addCurrentMeta k ++ [.LEDGER_ENTRY_REMOVED k]

end LedgerDelta

end SmartCore.Ledger
