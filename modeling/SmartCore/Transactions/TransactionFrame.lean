import SmartCore.Transactions.Operations

/-!
# Transactions and ledgers

A transaction is checked, and each of its operations is checked and applied in a delta of its own.
All of it is inside one transaction of the database and one delta, which are committed only if
every operation succeeded and every signature was used. Closing a ledger takes the sequence
numbers of all transactions first and then applies them one by one.

The account of the source of the transaction is loaded once. An operation with the same source
works on that frame and not on a copy of the row, so the frame is taken back when it is done.
-/

namespace SmartCore.Transactions

open SmartCore.Ledger

variable (app : Application)

/-! ## Signatures -/

namespace TransactionFrame

variable (env : TransactionEnvelope)

def isSetOptions (op : Operation) : Bool :=
  match op.body with
  | .SET_OPTIONS _ => true
  | _ => false

/-- The keys that can sign for an account. That of a bank does not count, unless all that the
transaction does is to set options. -/
def keyWeights (account : AccountEntry) : List Signer :=
  let skipAccountAsSigner :=
    account.accountType = .ACCOUNT_BANK ∧ ¬ env.tx.operations.all isSetOptions
  (if ¬ skipAccountAsSigner ∧ account.thresholds.masterWeight ≠ 0 then
    [⟨account.accountID, account.thresholds.masterWeight, SIGNER_GENERAL⟩]
  else []) ++ account.signers

/-- Whether `sig` is a signature of the transaction by the key of `signer`. -/
def signs (sig : DecoratedSignature) (signer : Signer) : Bool :=
  app.hasHint signer.pubKey sig.hint &&
    app.verifySig signer.pubKey sig.signature (app.getContentsHash env.tx)

/-- What `checkSignature` finds: whether the weight is enough, the signers that were used and the
indices of their signatures. -/
structure SignatureCheck where
  enough : Bool
  usedSigners : List Signer := []
  usedSignatures : List ℕ := []
deriving DecidableEq, Repr

/-- The loop over the signatures from the `i`th on: each uses up one of the keys. -/
def checkSignatureLoop (neededWeight : ℤ) :
    List DecoratedSignature → ℕ → List Signer → ℤ → SignatureCheck
  | [], _, _, _ => { enough := false }
  | sig :: signatures, i, keyWeights, totalWeight =>
    match keyWeights.find? (signs app env sig) with
    | none => checkSignatureLoop neededWeight signatures (i + 1) keyWeights totalWeight
    | some signer =>
      let totalWeight := (totalWeight + signer.weight).bmod (2 ^ 32)
      if neededWeight ≤ totalWeight then
        { enough := true, usedSigners := [signer], usedSignatures := [i] }
      else
        -- can't sign twice
        let r := checkSignatureLoop neededWeight signatures (i + 1)
          (keyWeights.eraseP (signs app env sig)) totalWeight
        { enough := r.enough
          usedSigners := signer :: r.usedSigners
          usedSignatures := i :: r.usedSignatures }

/-- Marks the signatures that are used, and returns the check. -/
def checkSignature (account : AccountEntry) (neededWeight : ℤ) : LedgerM SignatureCheck := do
  let r := checkSignatureLoop app env neededWeight env.signatures 0 (keyWeights env account) 0
  modify fun s => { s with
    mUsedSignatures := r.usedSignatures.foldl (fun used i => used.set i true) s.mUsedSignatures }
  return r

def resetSignatureTracker : LedgerM Unit :=
  modify fun s => { s with
    mSigningAccount := none
    mUsedSignatures := List.replicate env.signatures.length false }

def checkAllSignaturesUsed : LedgerM Unit := do
  if (← get).mUsedSignatures.all id then pure () else throw (.txFailed .txBAD_AUTH_EXTRA)

/-! ## Accounts -/

/-- `delta` is `none` when the transaction is only checked. -/
def loadFrame (delta : Option ℕ) (accountID : AccountID) : LedgerM (Option AccountFrame) :=
  match delta with
  | some d => AccountFrame.loadAccount d accountID
  | none => AccountFrame.loadAccountDb accountID

def loadAccount (delta : Option ℕ) (accountID : AccountID) : LedgerM (Option AccountFrame) := do
  match (← get).mSigningAccount with
  | some a => if a.getID = accountID then return some a else loadFrame delta accountID
  | none => loadFrame delta accountID

/-- Loads the account of the source of the transaction. -/
def loadSigningAccount (delta : Option ℕ) : LedgerM (Option AccountFrame) := do
  let mSigningAccount ← loadAccount delta env.tx.sourceAccount
  modify ({ · with mSigningAccount })
  return mSigningAccount

end TransactionFrame

open TransactionFrame

/-! ## Operations -/

namespace OperationFrame

variable (env : TransactionEnvelope)

def getSourceID (op : Operation) : AccountID := op.sourceAccount.getD env.tx.sourceAccount

/-- The weight that the signers of the source need. -/
def getNeededThreshold (source : AccountEntry) : OperationBody → ℤ
  | .SET_OPTIONS op =>
    if op.masterWeight.isSome ∨ op.lowThreshold.isSome ∨ op.medThreshold.isSome ∨
        op.highThreshold.isSome ∨ op.signer.isSome then source.thresholds.high.val
    else source.thresholds.med.val
  | .ALLOW_TRUST _ => source.thresholds.low.val
  | .ACCOUNT_MERGE _ => source.thresholds.high.val
  | .INFLATION => source.thresholds.low.val
  | _ => source.thresholds.med.val

def doCheckValid (op : Operation) (fee : Option OperationFee) : LedgerM Unit :=
  let sourceID := getSourceID env op
  match op.body with
  | .CREATE_ACCOUNT op => CreateAccountOpFrame.doCheckValid app sourceID op
  | .PAYMENT op => PaymentOpFrame.doCheckValid app fee op
  | .PATH_PAYMENT op => PathPaymentOpFrame.doCheckValid app fee op
  | .MANAGE_OFFER op => ManageOfferOpFrame.doCheckValid app op
  | .CREATE_PASSIVE_OFFER op => ManageOfferOpFrame.doCheckValid app op.toManageOffer
  | .SET_OPTIONS op => SetOptionsOpFrame.doCheckValid sourceID op
  | .CHANGE_TRUST op => ChangeTrustOpFrame.doCheckValid app op
  | .ALLOW_TRUST op => AllowTrustOpFrame.doCheckValid app sourceID op
  | .ACCOUNT_MERGE destination => MergeOpFrame.doCheckValid app op.sourceAccount destination
  | .INFLATION => pure ()
  | .MANAGE_DATA op => ManageDataOpFrame.doCheckValid op
  | .ADMINISTRATIVE op => AdministrativeOpFrame.doCheckValid app sourceID op
  | .PAYMENT_REVERSAL op => PaymentReversalOpFrame.doCheckValid app op
  | .EXTERNAL_PAYMENT op => PaymentExternalOpFrame.doCheckValid app fee op

def doApply (d : ℕ) (op : Operation) (fee : Option OperationFee) : LedgerM OperationResultTr := do
  let sourceID := getSourceID env op
  match op.body with
  | .CREATE_ACCOUNT op =>
    return .createAccountResult (← CreateAccountOpFrame.doApply app d sourceID fee op)
  | .PAYMENT op => return .paymentResult (← PaymentOpFrame.doApply app d sourceID fee op)
  | .PATH_PAYMENT op =>
    return .pathPaymentResult (← PathPaymentOpFrame.doApply app d sourceID fee false op)
  | .MANAGE_OFFER op =>
    return .manageOfferResult (← ManageOfferOpFrame.doApply app d sourceID false op)
  | .CREATE_PASSIVE_OFFER op =>
    return .manageOfferResult (← ManageOfferOpFrame.doApply app d sourceID true op.toManageOffer)
  | .SET_OPTIONS op => return .setOptionsResult (← SetOptionsOpFrame.doApply d op)
  | .CHANGE_TRUST op =>
    let (_, source) ← ChangeTrustOpFrame.doApply d (← getSourceAccount) op
    setSourceAccount source
    return .changeTrustResult .CHANGE_TRUST_SUCCESS
  | .ALLOW_TRUST op => return .allowTrustResult (← AllowTrustOpFrame.doApply d sourceID op)
  | .ACCOUNT_MERGE destination =>
    return .accountMergeResult (← MergeOpFrame.doApply d destination)
  | .INFLATION => return .inflationResult (← InflationOpFrame.doApply app d)
  | .MANAGE_DATA op => return .manageDataResult (← ManageDataOpFrame.doApply d op)
  | .ADMINISTRATIVE _ => return .adminResult .ADMINISTRATIVE_SUCCESS
  | .PAYMENT_REVERSAL op =>
    return .paymentReversalResult (← PaymentReversalOpFrame.doApply app d sourceID op)
  | .EXTERNAL_PAYMENT op =>
    return .paymentResult (← PaymentExternalOpFrame.doApply app d sourceID fee op)

/-- An account that is not in the ledger, to check signatures with: it cannot be saved. -/
def makeAuthOnlyAccount (id : AccountID) : AccountFrame :=
  let account := AccountFrame.ofID id
  { account with mAccountEntry := { account.mAccountEntry with balance := INT64_MIN } }

/-- Loads the account of the source into `mSourceAccount`. -/
def loadSource (delta : Option ℕ) (op : Operation) : LedgerM AccountFrame := do
  match ← TransactionFrame.loadAccount delta (getSourceID env op) with
  | some source =>
    setSourceAccount source
    return source
  | none =>
    match delta, op.sourceAccount with
    | none, some sourceAccount =>
      setSourceAccount (makeAuthOnlyAccount sourceAccount)
      return makeAuthOnlyAccount sourceAccount
    | _, _ => throw (.opFailed .opNO_ACCOUNT)

/-- A merge is not checked for signatures: only that the bank is not merged without an admin among
the signers that a check would have used, and none did. -/
def checkSource (source : AccountFrame) (op : Operation) : LedgerM Unit := do
  match op.body with
  | .ACCOUNT_MERGE _ =>
    modify ({ · with mUsedSigners := [] })
    runIf (getSourceID env op = app.BANK_MASTER_KEY) (throw (.opFailed .opBAD_AUTH))
  | _ =>
    let r ← checkSignature app env source.mAccountEntry
      (getNeededThreshold source.mAccountEntry op.body)
    modify ({ · with mUsedSigners := r.usedSigners })
    runIf (!r.enough) (throw (.opFailed .opBAD_AUTH))

def checkValid (delta : Option ℕ) (op : Operation) (fee : Option OperationFee) :
    LedgerM Unit := do
  let source ← loadSource env delta op
  checkSource app env source op
  runIf delta.isNone (modify ({ · with mSourceAccount := none }))
  doCheckValid app env op fee

/-- Takes back the frame of the account of the transaction. -/
def syncSigningAccount (op : Operation) : LedgerM Unit :=
  modify fun s => { s with
    mSigningAccount := s.mSigningAccount.bind fun a =>
      if a.getID = getSourceID env op then s.mSourceAccount else some a }

/-- Whether the operation succeeded; its result is added to the results. -/
def apply (d : ℕ) (op : Operation) (fee : Option OperationFee) : LedgerM Bool := do
  let r ← tryCatch
    (do
      checkValid app env (some d) op fee
      return (true, .opINNER (← doApply app env d op fee)))
    fun
      | .opFailed r => return (false, r)
      | e => throw e
  syncSigningAccount env op
  modify fun s => { s with results := s.results ++ [r.2] }
  return r.1

end OperationFrame

/-! ## Transactions -/

namespace TransactionFrame

variable (env : TransactionEnvelope)

/-- The operations with their fees: there is none for an operation without one. -/
def mOperations : List (Operation × Option OperationFee) :=
  env.tx.operations.zipIdx.map fun op => (op.1, env.operationFees[op.2]?)

/-- `getResult().result.code(r); return false;` -/
def failTx (c : Prop) [Decidable c] (r : TransactionResult) : LedgerM Unit :=
  if c then throw (.txFailed r) else pure ()

/-- `current` is the sequence number when the transaction is only checked, 0 for that of the
account. -/
def commonValid (delta : Option ℕ) (current : ℕ) : LedgerM Unit := do
  let header := (← get).mCurrentLedger
  failTx (env.tx.operations.length = 0) .txMISSING_OPERATION
  failTx (env.tx.operations.length ≠ env.operationFees.length) .txINTERNAL_ERROR
  failTx (∃ bounds ∈ env.tx.timeBounds, header.closeTime < bounds.minTime) .txTOO_EARLY
  failTx (∃ bounds ∈ env.tx.timeBounds, bounds.maxTime ≠ 0 ∧ bounds.maxTime < header.closeTime)
    .txTOO_LATE
  failTx (env.tx.fee < header.baseFee * env.tx.operations.length) .txINSUFFICIENT_FEE
  match ← loadSigningAccount env delta with
  | none => throw (.txFailed .txNO_ACCOUNT)
  | some account =>
    -- when applying, the account's sequence number is updated when taking fees
    failTx (delta.isNone ∧ ((if current = 0 then account.mAccountEntry.seqNum else current) + 1) %
      2 ^ 64 ≠ env.tx.seqNum) .txBAD_SEQ
    let r ← checkSignature app env account.mAccountEntry account.mAccountEntry.thresholds.low.val
    failTx (!r.enough) .txBAD_AUTH
    -- don't let the account go below the reserve
    let minBalance ← account.getMinimumBalance
    failTx (int64 (account.getBalance - env.tx.fee) < minBalance) .txINSUFFICIENT_BALANCE

/-- The operations in order, each in its own delta; the changes go to the meta. An operation that
fails does not keep the others from being applied. -/
def applyOperations (d : ℕ) : List (Operation × Option OperationFee) → LedgerM Bool
  | [] => return false
  | (op, fee) :: operations => do
    let txRes ← nested d do
      let txRes ← OperationFrame.apply app env (d + 1) op fee
      modify fun s => { s with tm := s.tm ++ [(s.deltas (d + 1)).getChanges] }
      return txRes
    let errorEncountered ← applyOperations d operations
    return !txRes || errorEncountered

/-- All operations, in one transaction of the database and one delta. -/
def applyAll (d : ℕ) : LedgerM Unit :=
  nested d (sqlTransaction do
    if ← applyOperations app env (d + 1) (mOperations env) then
      throw (.txFailed (.txFAILED (← get).results))
    else checkAllSignaturesUsed)

/-- Whether the transaction succeeded, with its result in `mResult` and its meta in `tm`. -/
def apply (d : ℕ) : LedgerM Bool :=
  tryCatch
    (do
      resetSignatureTracker env
      commonValid app env (some d) 0
      applyAll app env d
      modify fun s => { s with mResult := .txSUCCESS s.results }
      return true)
    fun
      | .txFailed (.txFAILED results) => do
        modify ({ · with tm := [], mResult := .txFAILED results })
        return false
      | .txFailed r => do
        modify ({ · with mResult := r })
        return false
      | e => throw e

/-- Whether the transaction can be accepted. -/
def checkValid (current : ℕ) : LedgerM Bool :=
  tryCatch
    (do
      resetSignatureTracker env
      commonValid app env none current
      (mOperations env).forM fun op => OperationFrame.checkValid app env none op.1 op.2
      checkAllSignaturesUsed
      return true)
    fun
      | .opFailed _ => return false
      | .txFailed _ => return false
      | e => throw e

def processFeeSeqNum (d : ℕ) : LedgerM Unit := do
  resetSignatureTracker env
  match ← loadSigningAccount env (some d) with
  | none => throw (.exception "Unexpected database state")
  | some account =>
    if (account.mAccountEntry.seqNum + 1) % 2 ^ 64 ≠ env.tx.seqNum then
      throw (.exception "Unexpected account state")
    else
      let account := { account with mAccountEntry := { account.mAccountEntry with
        seqNum := env.tx.seqNum } : AccountFrame }
      let account ← account.storeChange d
      modify ({ · with mSigningAccount := some account })

end TransactionFrame

/-! ## Ledgers -/

namespace LedgerManager

/-- Closing the scope of a delta that is not committed. -/
def applyInDelta (env : TransactionEnvelope) : LedgerM Unit := do
  if ← TransactionFrame.apply app env 1 then pure ()
  else
    -- failure means there should be no side effects
    let s ← get
    assertion ((s.deltas 1).getChanges = [] ∧
      (s.deltas 1).mCurrentHeader = (s.deltas 0).mCurrentHeader)
    throw (.txFailed s.mResult)

def storeTransaction : LedgerM Unit :=
  modify fun s => { s with txhistory := s.txhistory ++ [⟨s.mResult, s.tm⟩] }

/-- One transaction of `applyTransactions`. -/
def applyTransaction (env : TransactionEnvelope) : LedgerM Unit := do
  -- the operations have frames of their own, in which no account is loaded yet
  modify ({ · with tm := [], results := [], mSigningAccount := none, mSourceAccount := none })
  tryCatch (nested 0 (applyInDelta app env))
    fun
      | .txFailed _ => pure ()
      | .abort => throw .abort
      | _ => modify ({ · with mResult := .txINTERNAL_ERROR })
  storeTransaction

def applyTransactions (txs : List TransactionEnvelope) : LedgerM Unit :=
  txs.forM (applyTransaction app)

def processFeesSeqNums (txs : List TransactionEnvelope) : LedgerM Unit :=
  sqlTransaction (txs.forM fun env => nested 0 (TransactionFrame.processFeeSeqNum env 1))

inductive LedgerUpgrade where
  | LEDGER_UPGRADE_VERSION (newLedgerVersion : ℕ)
  | LEDGER_UPGRADE_MAX_TX_SET_SIZE (newMaxTxSetSize : ℕ)
deriving DecidableEq, Repr

def LedgerUpgrade.upgrade (header : LedgerHeader) : LedgerUpgrade → LedgerHeader
  | .LEDGER_UPGRADE_VERSION newLedgerVersion => { header with ledgerVersion := newLedgerVersion }
  | .LEDGER_UPGRADE_MAX_TX_SET_SIZE newMaxTxSetSize =>
    { header with maxTxSetSize := newMaxTxSetSize }

/-- What consensus agreed on for a ledger: the transactions are in the order to apply them in. -/
structure LedgerCloseData where
  closeTime : ℕ
  txs : List TransactionEnvelope
  upgrades : List LedgerUpgrade := []
deriving DecidableEq, Repr

/-- `ledgerDelta.commit()`, and the header of the next ledger. -/
def commitLedger : LedgerM Unit := do
  let s ← get
  if (s.deltas 0).mPreviousHeaderValue ≠ s.mCurrentLedger then
    throw (.exception "unexpected header state")
  else
    let header := (s.deltas 0).mCurrentHeader
    set { s with mCurrentLedger := { header with ledgerSeq := header.ledgerSeq + 1 } }

def closeLedger (data : LedgerCloseData) : LedgerM Unit :=
  sqlTransaction do
    modify fun s => { s with
      mCurrentLedger := { s.mCurrentLedger with closeTime := data.closeTime }
      mSigningAccount := none
      mSourceAccount := none }
    modify fun s => { s with deltas := Function.update s.deltas 0 (.ofHeader s.mCurrentLedger) }
    processFeesSeqNums data.txs
    applyTransactions app data.txs
    let header ← getHeader 0
    setHeader 0 (data.upgrades.foldl LedgerUpgrade.upgrade header)
    commitLedger

/-- The account of the bank, and that of commissions unless they are the same. -/
def startNewLedger : LedgerM Unit := do
  let genesisHeader : LedgerHeader := { maxTxSetSize := 100, ledgerSeq := 1 }
  modify fun s => { s with
    mCurrentLedger := genesisHeader
    deltas := Function.update s.deltas 0 (.ofHeader genesisHeader) }
  let account (id : AccountID) (accountType : AccountType) : AccountFrame :=
    let account := AccountFrame.ofID id
    { account with mAccountEntry := { account.mAccountEntry with accountType } }
  let _ ← (account app.BANK_MASTER_KEY .ACCOUNT_BANK).storeAdd 0
  runIf (app.BANK_MASTER_KEY ≠ app.BANK_COMMISSION_KEY) do
    let _ ← (account app.BANK_COMMISSION_KEY .ACCOUNT_COMMISSION).storeAdd 0
  commitLedger

/-- Ledgers closed from genesis on. -/
def runLedgers (ledgers : List LedgerCloseData) : LedgerM Unit := do
  startNewLedger app
  runInputs (closeLedger app) ledgers

/-! ## Example ledgers -/

/-- A bank with the key 1 and commissions with the key 2. A key signs with itself. -/
def exampleBank : Application where
  BANK_MASTER_KEY := 1
  BANK_COMMISSION_KEY := 2
  getContentsHash := fun _ => 0
  hasHint := fun key hint => key == hint
  verifySig := fun key signature _ => key == signature
  computePrice := fun price => price.n * 1000000 / price.d
  strKey := fun key => key

theorem length_usd : ([85, 83, 68, 0] : List (Fin 256)).length = 4 := rfl

/-- Credit of the bank. -/
def usd : Asset := .alphaNum4 ⟨[85, 83, 68, 0], length_usd⟩ 1

/-- A transaction of one source, signed by one key. -/
def signedBy (key source seqNum : ℕ) (operations : List Operation) (fees : List OperationFee) :
    TransactionEnvelope :=
  ⟨{ sourceAccount := source, fee := 0, seqNum, operations }, [⟨key, key⟩], fees⟩

/-- The bank adds the signer 11, and pays 100 to the account 5. -/
def issue : LedgerCloseData where
  closeTime := 10
  txs :=
    [signedBy 1 1 1 [⟨none, .SET_OPTIONS { signer := some ⟨11, 1, 0⟩ }⟩] [.opFEE_NONE],
      signedBy 11 1 2 [⟨none, .PAYMENT ⟨5, usd, 100⟩⟩] [.opFEE_NONE]]

/-- The balance of a trust line. -/
def lineBalance (s : LedgerState) (id : AccountID) (asset : Asset) : Option ℤ :=
  s.db.trustlines[LedgerKey.trustLine id asset]?.map (·.entry.balance)

end LedgerManager

end SmartCore.Transactions
