import SmartCore.Transactions.OfferExchange

/-!
# Applying operations

`doCheckValid` and `doApply` of each kind of operation. An operation that fails stops with its
result; one that succeeds returns it. `sourceID` is the source of the operation, its account is
in `mSourceAccount`, and `d` is the delta of the operation.

A payment, an external payment and a scratch card are path payments of one asset, and what a path
payment pays into is created where it does not exist: the account of the destination, its trust
line, and the trust lines of the commission account and of the issuer.
-/

namespace SmartCore.Transactions

open SmartCore.Ledger

variable (app : Application)

/-! ## Helper statements -/

/-- `innerResult().code(r); return false;` -/
def fail {α : Type} (r : OperationResultTr) : LedgerM α := throw (.opFailed (.opINNER r))

def failIf (c : Prop) [Decidable c] (r : OperationResultTr) : LedgerM Unit :=
  if c then fail r else pure ()

theorem failIf_of_not {c : Prop} [Decidable c] (h : ¬ c) (r : OperationResultTr) :
    failIf c r = pure () := if_neg h

@[simp] theorem wp_failIf {Q : Unit → LedgerState → Prop} {E : Exit → LedgerState → Prop}
    {s : LedgerState} (c : Prop) [Decidable c] (r : OperationResultTr) :
    wp (failIf c r) Q E s ↔ (c → E (.opFailed (.opINNER r)) s) ∧ (¬ c → Q () s) := by
  unfold failIf fail
  rw [wp_ite, wp_throw, wp_pure]

def getSourceAccount : LedgerM AccountFrame := do deref (← get).mSourceAccount .abort

def setSourceAccount (f : AccountFrame) : LedgerM Unit :=
  modify ({ · with mSourceAccount := some f })

/-- Changes the entry of the source in memory. -/
def modifySourceAccount (change : AccountEntry → AccountEntry) : LedgerM Unit := do
  let source ← getSourceAccount
  setSourceAccount { source with mAccountEntry := change source.mAccountEntry }

/-- `mSourceAccount->storeChange(delta, db)` -/
def storeSourceAccount (d : ℕ) : LedgerM Unit := do
  let source ← getSourceAccount
  setSourceAccount (← source.storeChange d)

/-! ## Change trust -/

namespace ChangeTrustOpFrame

def result (r : ChangeTrustResult) : OperationResultTr := .changeTrustResult r

def doCheckValid (op : ChangeTrustOp) : LedgerM Unit := do
  failIf (op.limit < 0) (result .CHANGE_TRUST_MALFORMED)
  failIf (!isAssetValidOf app.BANK_MASTER_KEY op.line) (result .CHANGE_TRUST_MALFORMED)

/-- The line of an account that had none. -/
def newLine (sourceID : AccountID) (issuer : AccountFrame) (op : ChangeTrustOp) : TrustFrame :=
  TrustFrame.setAuthorized
    { mTrustLine := { accountID := sourceID, asset := op.line, limit := op.limit } }
    (!issuer.isAuthRequired || sourceID = getIssuer op.line)

/-- The account is passed along, because it is not always the source of an operation. -/
def doApply (d : ℕ) (account : AccountFrame) (op : ChangeTrustOp) :
    LedgerM (TrustFrame × AccountFrame) := do
  match ← TrustFrame.loadTrustLineIssuer d account.getID op.line with
  | (some line, issuer) =>
    -- we are modifying an old trustline
    failIf (op.limit < (← line.getBalance)) (result .CHANGE_TRUST_INVALID_LIMIT)
    if op.limit = 0 then
      line.storeDelete d
      let account ← deref (← account.addNumEntries (-1)) .abort
      return (line, ← account.storeChange d)
    else
      failIf issuer.isNone (result .CHANGE_TRUST_NO_ISSUER)
      let line := { line with mTrustLine := { line.mTrustLine with limit := op.limit } }
      return (← line.storeChange d, account)
  | (none, issuer) =>
    failIf (op.limit = 0) (result .CHANGE_TRUST_INVALID_LIMIT)
    match issuer with
    | none => fail (result .CHANGE_TRUST_NO_ISSUER)
    | some issuer =>
      match ← account.addNumEntries 1 with
      | none => fail (result .CHANGE_TRUST_LOW_RESERVE)
      | some account =>
        let account ← account.storeChange d
        let line ← (newLine account.getID issuer op).storeAdd d
        return (line, account)

end ChangeTrustOpFrame

/-- `OperationFrame::createTrustLine`: `none` if it is the account that cannot have the line. -/
def createTrustLine (d : ℕ) (account : AccountFrame) (asset : Asset) :
    LedgerM (Option (TrustFrame × AccountFrame)) :=
  tryCatch
    (do
      ChangeTrustOpFrame.doCheckValid app { line := asset, limit := INT64_MAX }
      return some (← ChangeTrustOpFrame.doApply d account { line := asset, limit := INT64_MAX }))
    fun
      | .opFailed (.opINNER (.changeTrustResult .CHANGE_TRUST_NO_ISSUER)) => return none
      | .opFailed (.opINNER (.changeTrustResult .CHANGE_TRUST_LOW_RESERVE)) => return none
      | .opFailed (.opINNER (.changeTrustResult .CHANGE_TRUST_MALFORMED)) =>
        throw (.exception "Failed to create trust line - change trust line op is malformed")
      | .opFailed (.opINNER (.changeTrustResult .CHANGE_TRUST_INVALID_LIMIT)) =>
        throw (.exception "Failed to create trust line - invalid limit")
      | .opFailed _ => throw (.exception "Unexpected error code from change trust line")
      | e => throw e

/-! ## Create account -/

namespace CreateAccountOpFrame

def result (r : CreateAccountResult) : OperationResultTr := .createAccountResult r

def doCheckValid (sourceID : AccountID) (op : CreateAccountOp) : LedgerM Unit := do
  match op.accountType with
  | .ACCOUNT_ANONYMOUS_USER => pure ()
  | .ACCOUNT_SCRATCH_CARD =>
    failIf (op.scratchCard.amount ≤ 0) (result .CREATE_ACCOUNT_MALFORMED)
    failIf (!isAssetValidOf app.BANK_MASTER_KEY op.scratchCard.asset)
      (result .CREATE_ACCOUNT_MALFORMED)
  | .ACCOUNT_REGISTERED_USER | .ACCOUNT_MERCHANT | .ACCOUNT_DISTRIBUTION_AGENT
  | .ACCOUNT_SETTLEMENT_AGENT | .ACCOUNT_EXCHANGE_AGENT =>
    failIf (sourceID ≠ app.BANK_MASTER_KEY) (result .CREATE_ACCOUNT_NOT_AUTHORIZED_TYPE)
  | .ACCOUNT_BANK | .ACCOUNT_COMMISSION => fail (result .CREATE_ACCOUNT_WRONG_TYPE)
  failIf (op.destination = sourceID) (result .CREATE_ACCOUNT_MALFORMED)

/-- `doApply` up to the payment onto a scratch card. -/
def createDestAccount (d : ℕ) (op : CreateAccountOp) : LedgerM AccountFrame := do
  let mDestAccount ← AccountFrame.loadAccount d op.destination
  failIf (op.accountType = .ACCOUNT_SCRATCH_CARD ∧
    (← getSourceAccount).mAccountEntry.accountType ≠ .ACCOUNT_DISTRIBUTION_AGENT)
    (result .CREATE_ACCOUNT_WRONG_TYPE)
  match mDestAccount with
  | some _ => fail (result .CREATE_ACCOUNT_ALREADY_EXIST)
  | none =>
    let account := AccountFrame.ofID op.destination
    { account with mAccountEntry := { account.mAccountEntry with
      accountType := op.accountType } : AccountFrame }.storeAdd d

end CreateAccountOpFrame

/-! ## Path payment -/

namespace PathPaymentOpFrame

def result (r : PathPaymentResult) : OperationResultTr := .pathPaymentResult r

/-- The checks of a fee against the asset and the amount that are paid. -/
def checkFee (fee : OperationFee) (asset : Asset) (amount : ℤ) (malformed : OperationResultTr) :
    LedgerM Unit := do
  match fee with
  | .opFEE_NONE => failIf (amount ≤ 0) malformed
  | .opFEE_CHARGED feeAsset amountToCharge =>
    failIf (feeAsset ≠ asset) malformed
    failIf (amountToCharge < 0) malformed
    failIf (int64 (amount - amountToCharge) ≤ 0) malformed

def doCheckValid (fee : Option OperationFee) (op : PathPaymentOp) : LedgerM Unit := do
  let fee ← deref fee .abort
  checkFee fee op.destAsset op.destAmount (result .PATH_PAYMENT_MALFORMED)
  failIf (op.sendMax ≤ 0) (result .PATH_PAYMENT_MALFORMED)
  failIf (!isAssetValidOf app.BANK_MASTER_KEY op.sendAsset ∨
    !isAssetValidOf app.BANK_MASTER_KEY op.destAsset) (result .PATH_PAYMENT_MALFORMED)
  failIf (!op.path.all (isAssetValidOf app.BANK_MASTER_KEY)) (result .PATH_PAYMENT_MALFORMED)

/-- What the commission account gets. -/
def commission : OperationFee → ℤ
  | .opFEE_NONE => 0
  | .opFEE_CHARGED _ amountToCharge => amountToCharge

/-- The trust line of the commission account, which is added if it does not exist. -/
def getCommissionDest (d : ℕ) (commissionDest : AccountFrame) (asset : Asset) :
    LedgerM (Option TrustFrame) := do
  match ← TrustFrame.loadTrustLine d commissionDest.getID asset with
  | some line => return some line
  | none =>
    let issuer ← deref (← AccountFrame.loadAccount d (getIssuer asset)) .abort
    let line := TrustFrame.setAuthorized
      { mTrustLine := { accountID := commissionDest.getID, asset, limit := INT64_MAX } }
      (!issuer.isAuthRequired)
    match ← commissionDest.addNumEntries 1 with
    | none => return none
    | some commissionDest =>
      let _ ← commissionDest.storeChange d
      return some (← line.storeAdd d)

/-- An anonymous account for the destination; `none` if the source may not create one. -/
def createDestination (d : ℕ) (sourceID : AccountID) (destination : AccountID) :
    LedgerM (Option AccountFrame) :=
  let op : CreateAccountOp := { destination, accountType := .ACCOUNT_ANONYMOUS_USER }
  tryCatch
    (do
      CreateAccountOpFrame.doCheckValid app sourceID op
      return some (← CreateAccountOpFrame.createDestAccount d op))
    fun
      | .opFailed (.opINNER (.createAccountResult .CREATE_ACCOUNT_UNDERFUNDED)) => return none
      | .opFailed (.opINNER (.createAccountResult .CREATE_ACCOUNT_LOW_RESERVE)) => return none
      | .opFailed (.opINNER (.createAccountResult .CREATE_ACCOUNT_NOT_AUTHORIZED_TYPE)) =>
        return none
      | .opFailed (.opINNER (.createAccountResult .CREATE_ACCOUNT_MALFORMED)) =>
        throw (.exception "Failed to create account - create account op is malformed")
      | .opFailed (.opINNER (.createAccountResult .CREATE_ACCOUNT_ALREADY_EXIST)) =>
        throw (.exception "Failed to create account - already exists")
      | .opFailed (.opINNER (.createAccountResult .CREATE_ACCOUNT_WRONG_TYPE)) =>
        throw (.exception "Failed to create account - wrong type")
      | .opFailed _ => throw (.exception "Unexpected error code from createAccount")
      | e => throw e

/-- The account of the destination, which is created, with a trust line, if it does not exist. -/
def loadDestination (d : ℕ) (sourceID : AccountID) (op : PathPaymentOp) :
    LedgerM AccountFrame := do
  match ← AccountFrame.loadAccount d op.destination with
  | some destination => return destination
  | none =>
    match ← createDestination app d sourceID op.destination with
    | none => fail (result .PATH_PAYMENT_NO_DESTINATION)
    | some destination =>
      if op.destAsset = .native then return destination
      else
        match ← createTrustLine app d destination op.destAsset with
        | none => fail (result .PATH_PAYMENT_NO_DESTINATION)
        | some (_, destination) => return destination

/-- Adds a native amount to an account and stores it. -/
def addNative (d : ℕ) (account : AccountFrame) (amount : ℤ) : LedgerM AccountFrame :=
  { account with mAccountEntry := { account.mAccountEntry with
      balance := int64 (account.getBalance + amount) } : AccountFrame }.storeChange d

/-- Pays the destination and the commission account in the native asset. -/
def payNative (d : ℕ) (destination commissionDestination : AccountFrame)
    (curBReceived curBCommission : ℤ) : LedgerM Unit := do
  failIf (destination.mAccountEntry.accountType = .ACCOUNT_SCRATCH_CARD)
    (result .PATH_PAYMENT_NO_DESTINATION)
  let _ ← addNative d destination curBReceived
  let _ ← addNative d commissionDestination curBCommission

/-- The trust line of the destination. -/
def loadDestLine (d : ℕ) (destination : AccountFrame) (op : PathPaymentOp) :
    LedgerM TrustFrame := do
  match ← TrustFrame.loadTrustLineIssuer d op.destination op.destAsset with
  | (_, none) => fail (result (.PATH_PAYMENT_NO_ISSUER op.destAsset))
  | (some line, some _) => return line
  | (none, some _) =>
    return (← deref (← createTrustLine app d destination op.destAsset) .abort).1

/-- Pays the destination and the commission account on their trust lines. -/
def payCredit (d : ℕ) (isCreate : Bool) (destination commissionDestination : AccountFrame)
    (op : PathPaymentOp) (curBReceived curBCommission : ℤ) : LedgerM Unit := do
  let destLine ← loadDestLine app d destination op
  failIf (!destLine.isAuthorized) (result .PATH_PAYMENT_NOT_AUTHORIZED)
  failIf (destination.mAccountEntry.accountType = .ACCOUNT_SCRATCH_CARD ∧ !isCreate)
    (result .PATH_PAYMENT_NO_DESTINATION)
  match destLine.addBalance curBReceived with
  | none => fail (result .PATH_PAYMENT_LINE_FULL)
  | some destLine =>
    match ← getCommissionDest d commissionDestination op.destAsset with
    | none => fail (result .PATH_PAYMENT_NO_DESTINATION)
    | some commissionDestLine =>
      match commissionDestLine.addBalance curBCommission with
      | none => fail (result .PATH_PAYMENT_LINE_FULL)
      | some commissionDestLine =>
        let _ ← commissionDestLine.storeChange d
        let _ ← destLine.storeChange d

/-- Own offers are not crossed: that could invalidate the account of the source. -/
def notSelf (sourceID : AccountID) (o : OfferFrame) : OfferExchange.OfferFilterResult :=
  if o.mOffer.sellerID = sourceID then .eStop true else .eKeep

/-- Walks the path backwards, and finds what has to be sent of its first asset. -/
def walkPath (d : ℕ) (sourceID : AccountID) :
    List Asset → Asset → ℤ → List ClaimOfferAtom → LedgerM (Asset × ℤ × List ClaimOfferAtom)
  | [], curB, curBNeedToSend, offers => return (curB, curBNeedToSend, offers)
  | curA :: path, curB, curBNeedToSend, offers => do
    if curA = curB then walkPath d sourceID path curB curBNeedToSend offers
    else
      runIf (curA ≠ .native) do
        failIf (← AccountFrame.loadAccount d (getIssuer curA)).isNone
          (result (.PATH_PAYMENT_NO_ISSUER curA))
      let (r, c) ← OfferExchange.convertWithOffers app d curA INT64_MAX curB curBNeedToSend
        (notSelf sourceID)
      match r with
      | .eFilterStop _ => fail (result .PATH_PAYMENT_OFFER_CROSS_SELF)
      | .ePartial => fail (result .PATH_PAYMENT_TOO_FEW_OFFERS)
      | .eOK =>
        failIf (curBNeedToSend ≠ c.wheatReceived) (result .PATH_PAYMENT_TOO_FEW_OFFERS)
        walkPath d sourceID path curA c.sheepSend (c.mOfferTrail ++ offers)

/-- The trust line of the source; the issuer gets one if it has none. -/
def loadSourceLine (d : ℕ) (sourceID : AccountID) (asset : Asset)
    (noIssuer noTrust : OperationResultTr) : LedgerM TrustFrame := do
  match ← TrustFrame.loadTrustLineIssuer d sourceID asset with
  | (_, none) => fail noIssuer
  | (some line, some _) => return line
  | (none, some _) =>
    if sourceID = getIssuer asset then
      match ← createTrustLine app d (← getSourceAccount) asset with
      | none => fail noTrust
      | some (line, source) =>
        setSourceAccount source
        return line
    else fail noTrust

/-- Takes what is sent from the account or the trust line of the source. -/
def debitSource (d : ℕ) (sourceID : AccountID) (curB : Asset) (curBSent : ℤ) : LedgerM Unit := do
  if curB = .native then
    let source ← getSourceAccount
    let minBalance ← source.getMinimumBalance
    failIf (int64 (source.getBalance - curBSent) < minBalance) (result .PATH_PAYMENT_UNDERFUNDED)
    setSourceAccount (← addNative d source (-curBSent))
  else
    let line ← loadSourceLine app d sourceID curB (result (.PATH_PAYMENT_NO_ISSUER curB))
      (result .PATH_PAYMENT_SRC_NO_TRUST)
    failIf (!line.isAuthorized) (result .PATH_PAYMENT_SRC_NOT_AUTHORIZED)
    match line.addBalance (int64 (-curBSent)) with
    | none => fail (result .PATH_PAYMENT_UNDERFUNDED)
    | some line =>
      let _ ← line.storeChange d

def doApply (d : ℕ) (sourceID : AccountID) (fee : Option OperationFee) (isCreate : Bool)
    (op : PathPaymentOp) : LedgerM PathPaymentResult := do
  let curBCommission := commission (← deref fee .abort)
  let curBReceived := int64 (op.destAmount - curBCommission)
  modify fun s => { s with
    db.trace := .payment op.destAmount curBReceived curBCommission :: s.db.trace }
  let commissionDestination ← deref (← AccountFrame.loadAccount d app.BANK_COMMISSION_KEY) .abort
  let destination ← loadDestination app d sourceID op
  if op.destAsset = .native then
    payNative d destination commissionDestination curBReceived curBCommission
  else
    payCredit app d isCreate destination commissionDestination op curBReceived curBCommission
  let (curB, curBSent, offers) ←
    walkPath app d sourceID (op.sendAsset :: op.path).reverse op.destAsset op.destAmount []
  -- make sure not over the max
  failIf (op.sendMax < curBSent) (result .PATH_PAYMENT_OVER_SENDMAX)
  debitSource app d sourceID curB curBSent
  return .PATH_PAYMENT_SUCCESS offers ⟨op.destination, op.destAsset, curBReceived⟩

end PathPaymentOpFrame

/-- A payment of one asset as a path payment: `translate` is the switch on its result. -/
def payAsset (d : ℕ) (sourceID : AccountID) (fee : Option OperationFee) (isCreate : Bool)
    (destination : AccountID) (asset : Asset) (amount : ℤ)
    (translate : PathPaymentResult → Option OperationResultTr) : LedgerM Unit :=
  let op : PathPaymentOp :=
    { sendAsset := asset, destAsset := asset, destAmount := amount, sendMax := amount,
      destination, path := [] }
  tryCatch
    (do
      PathPaymentOpFrame.doCheckValid app fee op
      let _ ← PathPaymentOpFrame.doApply app d sourceID fee isCreate op)
    fun
      | .opFailed (.opINNER (.pathPaymentResult r)) =>
        match translate r with
        | some r => fail r
        | none => throw (.exception "Unexpected error code from pathPayment")
      | .opFailed _ => throw (.exception "Unexpected error code from pathPayment")
      | e => throw e

namespace CreateAccountOpFrame

/-- What a failed payment onto a scratch card is for the operation. -/
def translate : PathPaymentResult → Option OperationResultTr
  | .PATH_PAYMENT_UNDERFUNDED => some (result .CREATE_ACCOUNT_UNDERFUNDED)
  | .PATH_PAYMENT_SRC_NO_TRUST => some (result .CREATE_ACCOUNT_UNDERFUNDED)
  | .PATH_PAYMENT_SRC_NOT_AUTHORIZED => some (result .CREATE_ACCOUNT_NOT_AUTHORIZED_TYPE)
  | .PATH_PAYMENT_LINE_FULL => some (result .CREATE_ACCOUNT_LINE_FULL)
  | .PATH_PAYMENT_NO_ISSUER _ => some (result .CREATE_ACCOUNT_NO_ISSUER)
  | _ => none

def doApply (d : ℕ) (sourceID : AccountID) (fee : Option OperationFee) (op : CreateAccountOp) :
    LedgerM CreateAccountResult := do
  let _ ← createDestAccount d op
  runIf (op.accountType = .ACCOUNT_SCRATCH_CARD)
    (payAsset app d sourceID fee true op.destination op.scratchCard.asset op.scratchCard.amount
      translate)
  return .CREATE_ACCOUNT_SUCCESS

end CreateAccountOpFrame

/-! ## Payment and external payment -/

namespace PaymentOpFrame

def result (r : PaymentResult) : OperationResultTr := .paymentResult r

def translate : PathPaymentResult → Option OperationResultTr
  | .PATH_PAYMENT_UNDERFUNDED => some (result .PAYMENT_UNDERFUNDED)
  | .PATH_PAYMENT_SRC_NOT_AUTHORIZED => some (result .PAYMENT_SRC_NOT_AUTHORIZED)
  | .PATH_PAYMENT_SRC_NO_TRUST => some (result .PAYMENT_SRC_NO_TRUST)
  | .PATH_PAYMENT_NO_DESTINATION => some (result .PAYMENT_NO_DESTINATION)
  | .PATH_PAYMENT_NO_TRUST => some (result .PAYMENT_NO_TRUST)
  | .PATH_PAYMENT_NOT_AUTHORIZED => some (result .PAYMENT_NOT_AUTHORIZED)
  | .PATH_PAYMENT_LINE_FULL => some (result .PAYMENT_LINE_FULL)
  | .PATH_PAYMENT_NO_ISSUER _ => some (result .PAYMENT_NO_ISSUER)
  | _ => none

/-- The checks that payments and external payments share. -/
def checkPayment (fee : Option OperationFee) (asset : Asset) (amount : ℤ) : LedgerM Unit := do
  let fee ← deref fee .abort
  PathPaymentOpFrame.checkFee fee asset amount (result .PAYMENT_MALFORMED)
  failIf (!isAssetValidOf app.BANK_MASTER_KEY asset) (result .PAYMENT_MALFORMED)

def doCheckValid (fee : Option OperationFee) (op : PaymentOp) : LedgerM Unit :=
  checkPayment app fee op.asset op.amount

def doApply (d : ℕ) (sourceID : AccountID) (fee : Option OperationFee) (op : PaymentOp) :
    LedgerM PaymentResult := do
  -- if sending to self directly, just mark as success
  runIf (op.destination ≠ sourceID)
    (payAsset app d sourceID fee false op.destination op.asset op.amount translate)
  return .PAYMENT_SUCCESS

end PaymentOpFrame

namespace PaymentExternalOpFrame

def doCheckValid (fee : Option OperationFee) (op : ExternalPaymentOp) : LedgerM Unit :=
  PaymentOpFrame.checkPayment app fee op.asset op.amount

def doApply (d : ℕ) (sourceID : AccountID) (fee : Option OperationFee) (op : ExternalPaymentOp) :
    LedgerM PaymentResult := do
  payAsset app d sourceID fee false op.exchangeAgent op.asset op.amount PaymentOpFrame.translate
  return .PAYMENT_SUCCESS

end PaymentExternalOpFrame

/-! ## Payment reversal -/

namespace PaymentReversalOpFrame

def result (r : PaymentReversalResult) : OperationResultTr := .paymentReversalResult r

def doCheckValid (op : PaymentReversalOp) : LedgerM Unit := do
  failIf (op.amount ≤ 0) (result .PAYMENT_REVERSAL_MALFORMED)
  failIf (op.commissionAmount < 0) (result .PAYMENT_REVERSAL_MALFORMED)
  failIf (!isAssetValidOf app.BANK_MASTER_KEY op.asset ∨ op.asset = .native)
    (result .PAYMENT_REVERSAL_MALFORMED)

def checkAllowed : Bool := true

def checkAlreadyReversed (d : ℕ) (op : PaymentReversalOp) : LedgerM Bool := do
  if ← ReversedPaymentFrame.exists op.paymentID then return false
  else
    ReversedPaymentFrame.storeAdd d op.paymentID
    return true

/-- The trust line that the payment came from, added if the account exists without it. -/
def loadSenderLine (d : ℕ) (op : PaymentReversalOp) : LedgerM TrustFrame := do
  match ← TrustFrame.loadTrustLineIssuer d op.paymentSource op.asset with
  | (_, none) => fail (result .PAYMENT_REVERSAL_NO_ISSUER)
  | (some line, some _) => return line
  | (none, some _) =>
    match ← AccountFrame.loadAccount d op.paymentSource with
    | none => fail (result .PAYMENT_REVERSAL_NO_PAYMENT_SENDER)
    | some destination =>
      match ← createTrustLine app d destination op.asset with
      | none => fail (result .PAYMENT_REVERSAL_NO_PAYMENT_SENDER_TRUST)
      | some (line, _) => return line

/-- Adds an amount to a trust line and stores it. -/
def addAndStore (d : ℕ) (line : TrustFrame) (amount : ℤ) (r : PaymentReversalResult) :
    LedgerM Unit := do
  match line.addBalance amount with
  | none => fail (result r)
  | some line =>
    let _ ← line.storeChange d

def doApply (d : ℕ) (sourceID : AccountID) (op : PaymentReversalOp) :
    LedgerM PaymentReversalResult := do
  failIf (!checkAllowed) (result .PAYMENT_REVERSAL_NOT_ALLOWED)
  failIf (!(← checkAlreadyReversed d op)) (result .PAYMENT_REVERSAL_ALREADY_REVERSED)
  -- commission
  match ← TrustFrame.loadTrustLine d app.BANK_COMMISSION_KEY op.asset with
  | none => fail (result .PAYMENT_REVERSAL_COMMISSION_UNDERFUNDED)
  | some commissionDestLine =>
    addAndStore d commissionDestLine (-op.commissionAmount)
      .PAYMENT_REVERSAL_COMMISSION_UNDERFUNDED
  -- the account that reverses the payment
  let sourceLine ← PathPaymentOpFrame.loadSourceLine app d sourceID op.asset
    (result .PAYMENT_REVERSAL_NO_ISSUER) (result .PAYMENT_REVERSAL_SRC_NO_TRUST)
  failIf (!sourceLine.isAuthorized) (result .PAYMENT_REVERSAL_SRC_NOT_AUTHORIZED)
  let sourceRecieved := int64 (op.amount - op.commissionAmount)
  addAndStore d sourceLine (int64 (-sourceRecieved)) .PAYMENT_REVERSAL_UNDERFUNDED
  -- the account that the payment came from
  let destLine ← loadSenderLine app d op
  failIf (!destLine.isAuthorized) (result .PAYMENT_REVERSAL_PAYMENT_SENDER_NOT_AUTHORIZED)
  addAndStore d destLine op.amount .PAYMENT_REVERSAL_PAYMENT_SENDER_LINE_FULL
  return .PAYMENT_REVERSAL_SUCCESS

end PaymentReversalOpFrame

/-! ## Manage offer -/

namespace ManageOfferOpFrame

open OfferExchange

def result (r : ManageOfferResult) : OperationResultTr := .manageOfferResult r

def doCheckValid (op : ManageOfferOp) : LedgerM Unit := do
  failIf (!isAssetValidOf app.BANK_MASTER_KEY op.selling ∨
    !isAssetValidOf app.BANK_MASTER_KEY op.buying) (result .MANAGE_OFFER_MALFORMED)
  failIf (op.selling = op.buying) (result .MANAGE_OFFER_MALFORMED)
  failIf (op.amount < 0 ∨ op.price.d ≤ 0 ∨ op.price.n ≤ 0) (result .MANAGE_OFFER_MALFORMED)

/-- What is sold: the trust line, which has to have some of it. -/
def loadSheepLine (d : ℕ) (sourceID : AccountID) (sheep : Asset) :
    LedgerM (Option TrustFrame) := do
  if sheep = .native then return none
  else
    match ← TrustFrame.loadTrustLineIssuer d sourceID sheep with
    | (_, none) => fail (result .MANAGE_OFFER_SELL_NO_ISSUER)
    | (none, some _) => fail (result .MANAGE_OFFER_SELL_NO_TRUST)
    | (some line, some _) =>
      failIf ((← line.getBalance) = 0) (result .MANAGE_OFFER_UNDERFUNDED)
      failIf (!line.isAuthorized) (result .MANAGE_OFFER_SELL_NOT_AUTHORIZED)
      return some line

/-- What is bought: the trust line. -/
def loadWheatLine (d : ℕ) (sourceID : AccountID) (wheat : Asset) :
    LedgerM (Option TrustFrame) := do
  if wheat = .native then return none
  else
    match ← TrustFrame.loadTrustLineIssuer d sourceID wheat with
    | (_, none) => fail (result .MANAGE_OFFER_BUY_NO_ISSUER)
    | (none, some _) => fail (result .MANAGE_OFFER_BUY_NO_TRUST)
    | (some line, some _) =>
      failIf (!line.isAuthorized) (result .MANAGE_OFFER_BUY_NOT_AUTHORIZED)
      return some line

/-- `mSheepLineA` and `mWheatLineA`; neither is loaded to delete an offer. -/
def checkOfferValid (d : ℕ) (sourceID : AccountID) (op : ManageOfferOp) :
    LedgerM (Option TrustFrame × Option TrustFrame) := do
  if op.amount = 0 then return (none, none)
  else
    let mSheepLineA ← loadSheepLine d sourceID op.selling
    let mWheatLineA ← loadWheatLine d sourceID op.buying
    return (mSheepLineA, mWheatLineA)

def buildOffer (account : AccountID) (op : ManageOfferOp) (flags : ℕ) : OfferEntry :=
  ⟨account, op.offerID, op.selling, op.buying, op.amount, op.price, flags⟩

/-- The offer as it will be, and whether it is passive. -/
def loadSellSheepOffer (d : ℕ) (sourceID : AccountID) (mPassive : Bool) (op : ManageOfferOp) :
    LedgerM (OfferFrame × Bool) := do
  if op.offerID ≠ 0 then
    match ← OfferFrame.loadOffer d sourceID op.offerID with
    | none => fail (result .MANAGE_OFFER_NOT_FOUND)
    | some offer =>
      let mOffer := buildOffer sourceID op offer.mOffer.flags
      return ({ offer with mOffer }, mOffer.flags &&& PASSIVE_FLAG ≠ 0)
  else return ({ mOffer := buildOffer sourceID op (if mPassive then PASSIVE_FLAG else 0) }, mPassive)

/-- The comparisons of prices are of fractions. -/
def Price.ge (a b : Price) : Prop := a.d * b.n ≤ a.n * b.d
def Price.gt (a b : Price) : Prop := a.d * b.n < a.n * b.d

instance (a b : Price) : Decidable (Price.ge a b) := inferInstanceAs (Decidable (_ ≤ _))
instance (a b : Price) : Decidable (Price.gt a b) := inferInstanceAs (Decidable (_ < _))

/-- Skips the offer itself, and stops at a worse price and at one's own offers. -/
def filter (sourceID : AccountID) (offer : OfferEntry) (mPassive : Bool) (o : OfferFrame) :
    OfferFilterResult :=
  let maxWheatPrice : Price := ⟨offer.price.d, offer.price.n⟩
  if o.mOffer.offerID = offer.offerID then .eSkip
  else if mPassive ∧ Price.ge o.mOffer.price maxWheatPrice ∨
      Price.gt o.mOffer.price maxWheatPrice then .eStop false
  else if o.mOffer.sellerID = sourceID then .eStop true
  else .eKeep

/-- The most wheat that the source can receive. -/
def maxWheat (wheat : Asset) (mWheatLineA : Option TrustFrame) : LedgerM ℤ := do
  if wheat = .native then return INT64_MAX
  else
    let line ← deref mWheatLineA .abort
    failIf (line.getMaxAmountReceive = 0) (result .MANAGE_OFFER_LINE_FULL)
    return line.getMaxAmountReceive

/-- The most sheep that the source can send. -/
def maxSheep (sheep : Asset) (mSheepLineA : Option TrustFrame) : LedgerM ℤ := do
  if sheep = .native then (← getSourceAccount).getBalanceAboveReserve
  else (← deref mSheepLineA .abort).getBalance

/-- Adds `amount` to what the source has, natively or on a trust line. -/
def adjustSource (d : ℕ) (asset : Asset) (line : Option TrustFrame) (amount : ℤ)
    (what : String) : LedgerM Unit := do
  if asset = .native then
    setSourceAccount (← PathPaymentOpFrame.addNative d (← getSourceAccount) amount)
  else
    match (← deref line .abort).addBalance amount with
    | none => throw (.exception what)
    | some line =>
      let _ ← line.storeChange d

/-- Crosses the offers on the other side; the amount of the offer is what is left to sell. The
offers are crossed in the inner delta, and the source is credited in the outer one. -/
def exchange (d : ℕ) (sourceID : AccountID) (op : ManageOfferOp) (offer : OfferFrame)
    (mPassive : Bool) (mSheepLineA mWheatLineA : Option TrustFrame) :
    LedgerM (ℤ × List ClaimOfferAtom) := do
  let maxAmountOfSheepCanSell ← maxSheep op.selling mSheepLineA
  let maxWheatCanSell ← maxWheat op.buying mWheatLineA
  let maxSheepBasedOnWheat :=
    (← bigDivide maxWheatCanSell offer.mOffer.price.d offer.mOffer.price.n).getD INT64_MAX
  -- the lesser of the amount we can sell and the amount put in the offer
  let maxSheepSend := min (min maxAmountOfSheepCanSell maxSheepBasedOnWheat) offer.mOffer.amount
  let (r, c) ← convertWithOffers app (d + 1) op.selling maxSheepSend op.buying maxWheatCanSell
    (filter sourceID offer.mOffer mPassive)
  failIf (r = .eFilterStop true) (result .MANAGE_OFFER_CROSS_SELF)
  runIf (0 < c.wheatReceived) do
    adjustSource d op.buying mWheatLineA c.wheatReceived "offer claimed over limit"
    adjustSource d op.selling mSheepLineA (int64 (-c.sheepSend)) "offer sold more than balance"
  return (int64 (maxSheepSend - c.sheepSend), c.mOfferTrail)

/-- Stores what is left of the offer, or deletes it. -/
def storeOffer (d : ℕ) (creatingNewOffer : Bool) (offer : OfferFrame) :
    LedgerM ManageOfferEffect := do
  if 0 < offer.mOffer.amount then
    if creatingNewOffer then
      match ← (← getSourceAccount).addNumEntries 1 with
      | none => fail (result .MANAGE_OFFER_LOW_RESERVE)
      | some source =>
        setSourceAccount source
        let header ← getHeader d
        let offerID := (header.idPool + 1) % 2 ^ 64
        setHeader d { header with idPool := offerID }
        let offer ← { offer with mOffer := { offer.mOffer with offerID } : OfferFrame }.storeAdd d
        storeSourceAccount d
        return .MANAGE_OFFER_CREATED offer.mOffer
    else
      let offer ← offer.storeChange d
      return .MANAGE_OFFER_UPDATED offer.mOffer
  else
    runIf (!creatingNewOffer) do
      offer.storeDelete d
      setSourceAccount (← deref (← (← getSourceAccount).addNumEntries (-1)) .abort)
      storeSourceAccount d
    return .MANAGE_OFFER_DELETED

def doApply (d : ℕ) (sourceID : AccountID) (mPassive : Bool) (op : ManageOfferOp) :
    LedgerM ManageOfferResult := do
  let (mSheepLineA, mWheatLineA) ← checkOfferValid d sourceID op
  let (offer, mPassive) ← loadSellSheepOffer d sourceID mPassive op
  nested d (sqlTransaction do
    let (amount, offersClaimed) ←
      if op.amount = 0 then pure (0, [])
      else exchange app d sourceID op offer mPassive mSheepLineA mWheatLineA
    let effect ← storeOffer (d + 1) (op.offerID = 0)
      { offer with mOffer := { offer.mOffer with amount } }
    return .MANAGE_OFFER_SUCCESS offersClaimed effect)

end ManageOfferOpFrame

/-- `ManageOfferOpHolder`: from `CreatePassiveOfferOp` to `ManageOfferOp`. -/
def CreatePassiveOfferOp.toManageOffer (op : CreatePassiveOfferOp) : ManageOfferOp :=
  ⟨op.selling, op.buying, op.amount, op.price, 0⟩

/-! ## Set options -/

namespace SetOptionsOpFrame

def result (r : SetOptionsResult) : OperationResultTr := .setOptionsResult r

def allAccountFlags : ℕ := AUTH_REQUIRED_FLAG ||| AUTH_REVOCABLE_FLAG ||| AUTH_IMMUTABLE_FLAG

/-- The bits of `flags` that are not in `mask`. -/
def clearBits (flags mask : ℕ) : ℕ := flags - (flags &&& mask)

def UINT8_MAX : ℕ := 255

def checkThreshold (threshold : Option ℕ) : LedgerM Unit :=
  failIf (∃ t ∈ threshold, UINT8_MAX < t) (result .SET_OPTIONS_THRESHOLD_OUT_OF_RANGE)

def doCheckValid (sourceID : AccountID) (op : SetOptionsOp) : LedgerM Unit := do
  failIf (∃ flags ∈ op.setFlags, clearBits flags allAccountFlags ≠ 0)
    (result .SET_OPTIONS_UNKNOWN_FLAG)
  failIf (∃ flags ∈ op.clearFlags, clearBits flags allAccountFlags ≠ 0)
    (result .SET_OPTIONS_UNKNOWN_FLAG)
  failIf (op.setFlags.getD 0 &&& op.clearFlags.getD 0 ≠ 0) (result .SET_OPTIONS_BAD_FLAGS)
  checkThreshold op.masterWeight
  checkThreshold op.lowThreshold
  checkThreshold op.medThreshold
  checkThreshold op.highThreshold
  failIf (∃ signer ∈ op.signer, signer.pubKey = sourceID) (result .SET_OPTIONS_BAD_SIGNER)
  failIf (∃ homeDomain ∈ op.homeDomain, !isString32Valid homeDomain)
    (result .SET_OPTIONS_INVALID_HOME_DOMAIN)

/-- A threshold is cut to a byte. -/
def byte (old : Fin 256) (threshold : Option ℕ) : Fin 256 := threshold.elim old (Fin.ofNat 256)

/-- Whether a change of flags is refused, because the authorization is immutable. -/
def cantChange (source : AccountFrame) (flags : Option ℕ) : Prop :=
  flags.getD 0 &&& allAccountFlags ≠ 0 ∧ source.isImmutableAuth

instance (source : AccountFrame) (flags : Option ℕ) : Decidable (cantChange source flags) :=
  inferInstanceAs (Decidable (_ ∧ _))

/-- The home domain, the weight of the master key and the thresholds. -/
def setFields (op : SetOptionsOp) (account : AccountEntry) : AccountEntry :=
  { account with
    homeDomain := op.homeDomain.getD account.homeDomain
    thresholds :=
      { masterWeight := byte account.thresholds.masterWeight op.masterWeight
        low := byte account.thresholds.low op.lowThreshold
        med := byte account.thresholds.med op.medThreshold
        high := byte account.thresholds.high op.highThreshold } }

/-- Whether the source may add a signer of this type: an account of type BANK can add emission
and admin signers, with its own key. -/
def signerTypeAllowed (source : AccountFrame) (mUsedSigners : List Signer) (signer : Signer) :
    Bool :=
  if signer.signerType = SIGNER_GENERAL then true
  else if signer.signerType = SIGNER_EMISSION ∨ signer.signerType = SIGNER_ADMIN then
    source.mAccountEntry.accountType = .ACCOUNT_BANK ∧
      (mUsedSigners.head?.any fun used => used.pubKey = source.getID)
  else false

/-- `signers.max_size()` -/
def MAX_SIGNERS : ℕ := 20

/-- Adds the signer, or changes its weight. -/
def addSigner (signer : Signer) : LedgerM Unit := do
  let source ← getSourceAccount
  if source.mAccountEntry.signers.any (·.pubKey = signer.pubKey) then
    modifySourceAccount fun account => { account with
      signers := account.signers.map fun old =>
        if old.pubKey = signer.pubKey then { old with weight := signer.weight } else old }
  else
    failIf (source.mAccountEntry.signers.length = MAX_SIGNERS)
      (result .SET_OPTIONS_TOO_MANY_SIGNERS)
    match ← source.addNumEntries 1 with
    | none => fail (result .SET_OPTIONS_LOW_RESERVE)
    | some source =>
      setSourceAccount source
      modifySourceAccount fun account => { account with signers := account.signers ++ [signer] }

/-- The loop that deletes a signer: `kept` are the signers before the iterator. -/
def deleteSigner (pubKey : AccountID) : List Signer → List Signer → LedgerM Unit
  | kept, [] => modifySourceAccount fun account => { account with signers := kept }
  | kept, old :: signers => do
    if old.pubKey = pubKey then
      setSourceAccount (← deref (← (← getSourceAccount).addNumEntries (-1)) .abort)
      deleteSigner pubKey kept signers
    else deleteSigner pubKey (kept ++ [old]) signers

def setSigner (signer : Signer) : LedgerM Unit := do
  let source ← getSourceAccount
  failIf (!signerTypeAllowed source (← get).mUsedSigners signer)
    (result .SET_OPTIONS_BAD_SIGNER_TYPE)
  if signer.weight ≠ 0 then addSigner signer
  else deleteSigner signer.pubKey [] source.mAccountEntry.signers
  setSourceAccount (← getSourceAccount).setUpdateSigners

def doApply (d : ℕ) (op : SetOptionsOp) : LedgerM SetOptionsResult := do
  match op.inflationDest with
  | none => pure ()
  | some inflationID =>
    failIf (← AccountFrame.loadAccount d inflationID).isNone
      (result .SET_OPTIONS_INVALID_INFLATION)
    modifySourceAccount ({ · with inflationDest := some inflationID })
  failIf (cantChange (← getSourceAccount) op.clearFlags) (result .SET_OPTIONS_CANT_CHANGE)
  modifySourceAccount fun account => { account with
    flags := clearBits account.flags (op.clearFlags.getD 0) }
  failIf (cantChange (← getSourceAccount) op.setFlags) (result .SET_OPTIONS_CANT_CHANGE)
  modifySourceAccount fun account => { account with
    flags := account.flags ||| op.setFlags.getD 0 }
  modifySourceAccount (setFields op)
  match op.signer with
  | none => pure ()
  | some signer => setSigner signer
  storeSourceAccount d
  return .SET_OPTIONS_SUCCESS

end SetOptionsOpFrame

/-! ## Allow trust -/

namespace AllowTrustOpFrame

def result (r : AllowTrustResult) : OperationResultTr := .allowTrustResult r

def ci (sourceID : AccountID) : AllowTrustAsset → Asset
  | .assetCode4 assetCode => .alphaNum4 assetCode sourceID
  | .assetCode12 assetCode => .alphaNum12 assetCode sourceID

def doCheckValid (sourceID : AccountID) (op : AllowTrustOp) : LedgerM Unit :=
  failIf (!isAssetValidOf app.BANK_MASTER_KEY (ci sourceID op.asset))
    (result .ALLOW_TRUST_MALFORMED)

def doApply (d : ℕ) (sourceID : AccountID) (op : AllowTrustOp) : LedgerM AllowTrustResult := do
  let flags := (← getSourceAccount).mAccountEntry.flags
  failIf (flags &&& AUTH_REQUIRED_FLAG = 0) (result .ALLOW_TRUST_TRUST_NOT_REQUIRED)
  failIf (flags &&& AUTH_REVOCABLE_FLAG = 0 ∧ !op.authorize) (result .ALLOW_TRUST_CANT_REVOKE)
  match ← TrustFrame.loadTrustLine d op.trustor (ci sourceID op.asset) with
  | none => fail (result .ALLOW_TRUST_NO_TRUST_LINE)
  | some trustLine =>
    let _ ← (trustLine.setAuthorized op.authorize).storeChange d
    return .ALLOW_TRUST_SUCCESS

end AllowTrustOpFrame

/-! ## Merge -/

namespace MergeOpFrame

def result (r : AccountMergeResult) : OperationResultTr := .accountMergeResult r

def doCheckValid (sourceAccount : Option AccountID) (destination : AccountID) : LedgerM Unit := do
  match sourceAccount with
  | none => fail (result .ACCOUNT_MERGE_MALFORMED)
  | some sourceAccount =>
    failIf (sourceAccount = destination) (result .ACCOUNT_MERGE_MALFORMED)
    failIf (sourceAccount = app.BANK_MASTER_KEY) (result .ACCOUNT_MERGE_MALFORMED)

def doApply (d : ℕ) (destination : AccountID) : LedgerM AccountMergeResult := do
  match ← AccountFrame.loadAccount d destination with
  | none => fail (result .ACCOUNT_MERGE_NO_ACCOUNT)
  | some otherAccount =>
    let source ← getSourceAccount
    failIf source.isImmutableAuth (result .ACCOUNT_MERGE_IMMUTABLE_SET)
    failIf (source.mAccountEntry.numSubEntries ≠ source.mAccountEntry.signers.length)
      (result .ACCOUNT_MERGE_HAS_SUB_ENTRIES)
    let _ ← PathPaymentOpFrame.addNative d otherAccount source.getBalance
    source.storeDelete d
    return .ACCOUNT_MERGE_SUCCESS source.getBalance

end MergeOpFrame

/-! ## Inflation -/

namespace InflationOpFrame

def result (r : InflationResult) : OperationResultTr := .inflationResult r

def INFLATION_FREQUENCY : ℕ := 60 * 60 * 24 * 7
def INFLATION_RATE_TRILLIONTHS : ℤ := 190721000
def TRILLION : ℤ := 1000000000000
def INFLATION_WIN_MIN_PERCENT : ℤ := 500000000
def INFLATION_NUM_WINNERS : ℕ := 2000
def INFLATION_START_TIME : ℕ := 1404172800

structure InflationVotes where
  mVotes : ℤ
  mInflationDest : AccountID
deriving DecidableEq, Repr

/-- The balances that vote for `dest`. -/
def votesFor (db : Database) (dest : AccountID) : ℤ :=
  ((db.accounts.toList.map fun row => row.2.entry).filter fun a =>
    a.inflationDest = some dest ∧ 1000000000 ≤ a.balance).map (·.balance) |>.sum

/-- More votes first, and among the same the greater key, as text. -/
def wins (v₁ v₂ : InflationVotes) : Prop :=
  v₂.mVotes < v₁.mVotes ∨
    v₁.mVotes = v₂.mVotes ∧ app.strKey v₂.mInflationDest ≤ app.strKey v₁.mInflationDest

instance : DecidableRel (wins app) := fun _ _ => inferInstanceAs (Decidable (_ ∨ _))

/-- `AccountFrame::processForInflation` up to the first with too few votes. -/
def winners (db : Database) (minBalance : ℤ) : List InflationVotes :=
  let dests := ((db.accounts.toList.map fun row => row.2.entry).filter fun a =>
    1000000000 ≤ a.balance).filterMap (·.inflationDest)
  let votes := dests.dedup.map fun dest => ⟨votesFor db dest, dest⟩
  ((votes.insertionSort (wins app)).take INFLATION_NUM_WINNERS).takeWhile
    fun v => minBalance ≤ v.mVotes

/-- Credits the winners one by one; what is left goes back to the fee pool. -/
def dole (d : ℕ) (amountToDole totalVotes : ℤ) :
    List InflationVotes → ℤ → LedgerM (ℤ × List InflationPayout)
  | [], leftAfterDole => return (leftAfterDole, [])
  | w :: winners, leftAfterDole => do
    let toDoleThisWinner ← bigDivideOrThrow amountToDole w.mVotes totalVotes
    if toDoleThisWinner = 0 then dole d amountToDole totalVotes winners leftAfterDole
    else
      match ← AccountFrame.loadAccount d w.mInflationDest with
      | none => dole d amountToDole totalVotes winners leftAfterDole
      | some winner =>
        let header ← getHeader d
        setHeader d { header with totalCoins := int64 (header.totalCoins + toDoleThisWinner) }
        let _ ← PathPaymentOpFrame.addNative d winner toDoleThisWinner
        let (left, payouts) ← dole d amountToDole totalVotes winners
          (int64 (leftAfterDole - toDoleThisWinner))
        return (left, ⟨w.mInflationDest, toDoleThisWinner⟩ :: payouts)

def doApply (d : ℕ) : LedgerM InflationResult :=
  nested d do
    let lcl ← getHeader (d + 1)
    failIf (lcl.closeTime < INFLATION_START_TIME + lcl.inflationSeq * INFLATION_FREQUENCY)
      (result .INFLATION_NOT_TIME)
    let totalVotes := lcl.totalCoins
    let minBalance ← bigDivideOrThrow totalVotes INFLATION_WIN_MIN_PERCENT TRILLION
    let winners := winners app (← get).db minBalance
    let inflation ← bigDivideOrThrow lcl.totalCoins INFLATION_RATE_TRILLIONTHS TRILLION
    let amountToDole := int64 (inflation + lcl.feePool)
    setHeader (d + 1)
      { lcl with feePool := 0, inflationSeq := (lcl.inflationSeq + 1) % 2 ^ 32 }
    let (leftAfterDole, payouts) ← dole (d + 1) amountToDole totalVotes winners amountToDole
    let header ← getHeader (d + 1)
    setHeader (d + 1) { header with feePool := int64 (header.feePool + leftAfterDole) }
    return .INFLATION_SUCCESS payouts

end InflationOpFrame

/-! ## Manage data -/

namespace ManageDataOpFrame

def result (r : ManageDataResult) : OperationResultTr := .manageDataResult r

def doCheckValid (op : ManageDataOp) : LedgerM Unit := do
  failIf ((← get).mCurrentLedger.ledgerVersion < 2) (result .MANAGE_DATA_NOT_SUPPORTED_YET)
  failIf (op.dataName.length < 1 ∨ !isString32Valid op.dataName)
    (result .MANAGE_DATA_INVALID_NAME)

def doApply (d : ℕ) (op : ManageDataOp) : LedgerM ManageDataResult := do
  let source ← getSourceAccount
  match op.dataValue, ← DataFrame.loadData source.getID op.dataName with
  | some dataValue, none =>
    -- create a new data entry
    match ← source.addNumEntries 1 with
    | none => fail (result .MANAGE_DATA_LOW_RESERVE)
    | some source =>
      setSourceAccount source
      DataFrame.storeAdd { mData := ⟨source.getID, op.dataName, dataValue⟩ } d
      storeSourceAccount d
  | some dataValue, some dataFrame =>
    DataFrame.storeChange { dataFrame with mData := { dataFrame.mData with dataValue } } d
  | none, none => fail (result .MANAGE_DATA_NAME_NOT_FOUND)
  | none, some dataFrame =>
    -- delete an existing piece of data
    setSourceAccount (← deref (← source.addNumEntries (-1)) .abort)
    storeSourceAccount d
    dataFrame.storeDelete d
  return .MANAGE_DATA_SUCCESS

end ManageDataOpFrame

/-! ## Administrative -/

namespace AdministrativeOpFrame

def result (r : AdministrativeResult) : OperationResultTr := .adminResult r

def doCheckValid (sourceID : AccountID) (op : AdministrativeOp) : LedgerM Unit := do
  failIf op.opData.isEmpty (result .ADMINISTRATIVE_MALFORMED)
  failIf (sourceID ≠ app.BANK_MASTER_KEY) (result .ADMINISTRATIVE_NOT_AUTHORIZED)
  let mUsedSigners := (← get).mUsedSigners
  failIf (mUsedSigners.isEmpty ∨ !mUsedSigners.all (·.signerType = SIGNER_ADMIN))
    (result .ADMINISTRATIVE_NOT_AUTHORIZED)

end AdministrativeOpFrame

end SmartCore.Transactions
