import SmartCore.Ledger.Entries

/-!
# Operations, envelopes and results

The operations of a transaction, the envelope that carries them with signatures and fees, and the
results they are answered with, as `Stellar-transaction.x` declares them. `memo` and the parts
reserved for future use are left out; nothing reads them.
-/

namespace SmartCore.Transactions

open SmartCore.Ledger

/-! ## Operations -/

structure ScratchCard where
  asset : Asset
  amount : ℤ
deriving DecidableEq, Repr

/-- The account type decides whether there is a scratch card: `body` of the union. -/
structure CreateAccountOp where
  destination : AccountID
  accountType : AccountType
  scratchCard : ScratchCard := ⟨.native, 0⟩
deriving DecidableEq, Repr

structure PaymentOp where
  destination : AccountID
  asset : Asset
  amount : ℤ
deriving DecidableEq, Repr

structure ExternalPaymentOp where
  exchangeAgent : AccountID
  destinationBank : AccountID
  destinationAccount : AccountID
  asset : Asset
  amount : ℤ
deriving DecidableEq, Repr

structure PathPaymentOp where
  sendAsset : Asset
  sendMax : ℤ
  destination : AccountID
  destAsset : Asset
  destAmount : ℤ
  path : List Asset
deriving DecidableEq, Repr

structure ManageOfferOp where
  selling : Asset
  buying : Asset
  amount : ℤ
  price : Price
  offerID : ℕ
deriving DecidableEq, Repr

structure CreatePassiveOfferOp where
  selling : Asset
  buying : Asset
  amount : ℤ
  price : Price
deriving DecidableEq, Repr

structure SetOptionsOp where
  inflationDest : Option AccountID := none
  clearFlags : Option ℕ := none
  setFlags : Option ℕ := none
  masterWeight : Option ℕ := none
  lowThreshold : Option ℕ := none
  medThreshold : Option ℕ := none
  highThreshold : Option ℕ := none
  homeDomain : Option XString := none
  signer : Option Signer := none
deriving DecidableEq, Repr

structure ChangeTrustOp where
  line : Asset
  limit : ℤ
deriving DecidableEq, Repr

/-- The asset without its issuer, which is the source of the operation. -/
inductive AllowTrustAsset where
  | assetCode4 (assetCode : Opaque 4)
  | assetCode12 (assetCode : Opaque 12)
deriving DecidableEq, Repr

structure AllowTrustOp where
  trustor : AccountID
  asset : AllowTrustAsset
  authorize : Bool
deriving DecidableEq, Repr

structure ManageDataOp where
  dataName : XString
  dataValue : Option XString
deriving DecidableEq, Repr

structure AdministrativeOp where
  opData : XString
deriving DecidableEq, Repr

structure PaymentReversalOp where
  paymentSource : AccountID
  asset : Asset
  amount : ℤ
  commissionAmount : ℤ
  paymentID : ℤ
deriving DecidableEq, Repr

inductive OperationBody where
  | CREATE_ACCOUNT (op : CreateAccountOp)
  | PAYMENT (op : PaymentOp)
  | PATH_PAYMENT (op : PathPaymentOp)
  | MANAGE_OFFER (op : ManageOfferOp)
  | CREATE_PASSIVE_OFFER (op : CreatePassiveOfferOp)
  | SET_OPTIONS (op : SetOptionsOp)
  | CHANGE_TRUST (op : ChangeTrustOp)
  | ALLOW_TRUST (op : AllowTrustOp)
  | ACCOUNT_MERGE (destination : AccountID)
  | INFLATION
  | MANAGE_DATA (op : ManageDataOp)
  | ADMINISTRATIVE (op : AdministrativeOp)
  | PAYMENT_REVERSAL (op : PaymentReversalOp)
  | EXTERNAL_PAYMENT (op : ExternalPaymentOp)
deriving DecidableEq, Repr

structure Operation where
  sourceAccount : Option AccountID := none
  body : OperationBody
deriving DecidableEq, Repr

/-! ## Envelopes -/

structure TimeBounds where
  minTime : ℕ
  maxTime : ℕ
deriving DecidableEq, Repr

structure Transaction where
  sourceAccount : AccountID
  fee : ℕ
  seqNum : ℕ
  timeBounds : Option TimeBounds := none
  operations : List Operation
deriving DecidableEq, Repr

inductive OperationFee where
  | opFEE_NONE
  | opFEE_CHARGED (asset : Asset) (amountToCharge : ℤ)
deriving DecidableEq, Repr

structure DecoratedSignature where
  hint : ℕ
  signature : ℕ
deriving DecidableEq, Repr

structure TransactionEnvelope where
  tx : Transaction
  signatures : List DecoratedSignature
  operationFees : List OperationFee
deriving DecidableEq, Repr

/-! ## Results -/

structure ClaimOfferAtom where
  sellerID : AccountID
  offerID : ℕ
  assetSold : Asset
  amountSold : ℤ
  assetBought : Asset
  amountBought : ℤ
deriving DecidableEq, Repr

inductive CreateAccountResult where
  | CREATE_ACCOUNT_SUCCESS
  | CREATE_ACCOUNT_MALFORMED
  | CREATE_ACCOUNT_UNDERFUNDED
  | CREATE_ACCOUNT_LOW_RESERVE
  | CREATE_ACCOUNT_ALREADY_EXIST
  | CREATE_ACCOUNT_NOT_AUTHORIZED_TYPE
  | CREATE_ACCOUNT_WRONG_TYPE
  | CREATE_ACCOUNT_LINE_FULL
  | CREATE_ACCOUNT_NO_ISSUER
deriving DecidableEq, Repr

inductive PaymentResult where
  | PAYMENT_SUCCESS
  | PAYMENT_MALFORMED
  | PAYMENT_UNDERFUNDED
  | PAYMENT_SRC_NO_TRUST
  | PAYMENT_SRC_NOT_AUTHORIZED
  | PAYMENT_NO_DESTINATION
  | PAYMENT_NO_TRUST
  | PAYMENT_NOT_AUTHORIZED
  | PAYMENT_LINE_FULL
  | PAYMENT_NO_ISSUER
deriving DecidableEq, Repr

structure SimplePaymentResult where
  destination : AccountID
  asset : Asset
  amount : ℤ
deriving DecidableEq, Repr

inductive PathPaymentResult where
  | PATH_PAYMENT_SUCCESS (offers : List ClaimOfferAtom) (last : SimplePaymentResult)
  | PATH_PAYMENT_MALFORMED
  | PATH_PAYMENT_UNDERFUNDED
  | PATH_PAYMENT_SRC_NO_TRUST
  | PATH_PAYMENT_SRC_NOT_AUTHORIZED
  | PATH_PAYMENT_NO_DESTINATION
  | PATH_PAYMENT_NO_TRUST
  | PATH_PAYMENT_NOT_AUTHORIZED
  | PATH_PAYMENT_LINE_FULL
  | PATH_PAYMENT_NO_ISSUER (noIssuer : Asset)
  | PATH_PAYMENT_TOO_FEW_OFFERS
  | PATH_PAYMENT_OFFER_CROSS_SELF
  | PATH_PAYMENT_OVER_SENDMAX
deriving DecidableEq, Repr

inductive ManageOfferEffect where
  | MANAGE_OFFER_CREATED (offer : OfferEntry)
  | MANAGE_OFFER_UPDATED (offer : OfferEntry)
  | MANAGE_OFFER_DELETED
deriving DecidableEq, Repr

inductive ManageOfferResult where
  | MANAGE_OFFER_SUCCESS (offersClaimed : List ClaimOfferAtom) (offer : ManageOfferEffect)
  | MANAGE_OFFER_MALFORMED
  | MANAGE_OFFER_SELL_NO_TRUST
  | MANAGE_OFFER_BUY_NO_TRUST
  | MANAGE_OFFER_SELL_NOT_AUTHORIZED
  | MANAGE_OFFER_BUY_NOT_AUTHORIZED
  | MANAGE_OFFER_LINE_FULL
  | MANAGE_OFFER_UNDERFUNDED
  | MANAGE_OFFER_CROSS_SELF
  | MANAGE_OFFER_SELL_NO_ISSUER
  | MANAGE_OFFER_BUY_NO_ISSUER
  | MANAGE_OFFER_NOT_FOUND
  | MANAGE_OFFER_LOW_RESERVE
deriving DecidableEq, Repr

inductive SetOptionsResult where
  | SET_OPTIONS_SUCCESS
  | SET_OPTIONS_LOW_RESERVE
  | SET_OPTIONS_TOO_MANY_SIGNERS
  | SET_OPTIONS_BAD_FLAGS
  | SET_OPTIONS_INVALID_INFLATION
  | SET_OPTIONS_CANT_CHANGE
  | SET_OPTIONS_UNKNOWN_FLAG
  | SET_OPTIONS_THRESHOLD_OUT_OF_RANGE
  | SET_OPTIONS_BAD_SIGNER
  | SET_OPTIONS_INVALID_HOME_DOMAIN
  | SET_OPTIONS_BAD_SIGNER_TYPE
deriving DecidableEq, Repr

inductive ChangeTrustResult where
  | CHANGE_TRUST_SUCCESS
  | CHANGE_TRUST_MALFORMED
  | CHANGE_TRUST_NO_ISSUER
  | CHANGE_TRUST_INVALID_LIMIT
  | CHANGE_TRUST_LOW_RESERVE
deriving DecidableEq, Repr

inductive AllowTrustResult where
  | ALLOW_TRUST_SUCCESS
  | ALLOW_TRUST_MALFORMED
  | ALLOW_TRUST_NO_TRUST_LINE
  | ALLOW_TRUST_TRUST_NOT_REQUIRED
  | ALLOW_TRUST_CANT_REVOKE
deriving DecidableEq, Repr

inductive AccountMergeResult where
  | ACCOUNT_MERGE_SUCCESS (sourceAccountBalance : ℤ)
  | ACCOUNT_MERGE_MALFORMED
  | ACCOUNT_MERGE_NO_ACCOUNT
  | ACCOUNT_MERGE_IMMUTABLE_SET
  | ACCOUNT_MERGE_HAS_SUB_ENTRIES
deriving DecidableEq, Repr

structure InflationPayout where
  destination : AccountID
  amount : ℤ
deriving DecidableEq, Repr

inductive InflationResult where
  | INFLATION_SUCCESS (payouts : List InflationPayout)
  | INFLATION_NOT_TIME
deriving DecidableEq, Repr

inductive ManageDataResult where
  | MANAGE_DATA_SUCCESS
  | MANAGE_DATA_NOT_SUPPORTED_YET
  | MANAGE_DATA_NAME_NOT_FOUND
  | MANAGE_DATA_LOW_RESERVE
  | MANAGE_DATA_INVALID_NAME
deriving DecidableEq, Repr

inductive AdministrativeResult where
  | ADMINISTRATIVE_SUCCESS
  | ADMINISTRATIVE_MALFORMED
  | ADMINISTRATIVE_NOT_AUTHORIZED
deriving DecidableEq, Repr

/-- The codes that the operation can answer with. -/
inductive PaymentReversalResult where
  | PAYMENT_REVERSAL_SUCCESS
  | PAYMENT_REVERSAL_UNDERFUNDED
  | PAYMENT_REVERSAL_SRC_NO_TRUST
  | PAYMENT_REVERSAL_SRC_NOT_AUTHORIZED
  | PAYMENT_REVERSAL_NO_PAYMENT_SENDER
  | PAYMENT_REVERSAL_NO_PAYMENT_SENDER_TRUST
  | PAYMENT_REVERSAL_PAYMENT_SENDER_NOT_AUTHORIZED
  | PAYMENT_REVERSAL_PAYMENT_SENDER_LINE_FULL
  | PAYMENT_REVERSAL_NO_ISSUER
  | PAYMENT_REVERSAL_COMMISSION_UNDERFUNDED
  | PAYMENT_REVERSAL_MALFORMED
  | PAYMENT_REVERSAL_NOT_ALLOWED
  | PAYMENT_REVERSAL_ALREADY_REVERSED
deriving DecidableEq, Repr

/-- The inner result of an operation. -/
inductive OperationResultTr where
  | createAccountResult (r : CreateAccountResult)
  | paymentResult (r : PaymentResult)
  | pathPaymentResult (r : PathPaymentResult)
  | manageOfferResult (r : ManageOfferResult)
  | setOptionsResult (r : SetOptionsResult)
  | changeTrustResult (r : ChangeTrustResult)
  | allowTrustResult (r : AllowTrustResult)
  | accountMergeResult (r : AccountMergeResult)
  | inflationResult (r : InflationResult)
  | manageDataResult (r : ManageDataResult)
  | adminResult (r : AdministrativeResult)
  | paymentReversalResult (r : PaymentReversalResult)
deriving DecidableEq, Repr

inductive OperationResult where
  | opINNER (tr : OperationResultTr)
  | opBAD_AUTH
  | opNO_ACCOUNT
deriving DecidableEq, Repr

inductive TransactionResult where
  | txSUCCESS (results : List OperationResult)
  | txFAILED (results : List OperationResult)
  | txTOO_EARLY
  | txTOO_LATE
  | txMISSING_OPERATION
  | txBAD_SEQ
  | txBAD_AUTH
  | txINSUFFICIENT_BALANCE
  | txNO_ACCOUNT
  | txINSUFFICIENT_FEE
  | txBAD_AUTH_EXTRA
  | txINTERNAL_ERROR
deriving DecidableEq, Repr

/-! ## Meta -/

inductive LedgerEntryChange where
  | LEDGER_ENTRY_CREATED (created : LedgerEntry)
  | LEDGER_ENTRY_UPDATED (updated : LedgerEntry)
  | LEDGER_ENTRY_REMOVED (removed : LedgerKey)
  | LEDGER_ENTRY_STATE (state : LedgerEntry)
deriving DecidableEq, Repr

/-- `operations` of the meta: the changes of each operation. -/
abbrev TransactionMeta := List (List LedgerEntryChange)

end SmartCore.Transactions
