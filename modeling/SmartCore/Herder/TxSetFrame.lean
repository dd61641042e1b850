import Mathlib.Data.Prod.Lex
import Mathlib.Data.Rat.Floor
import SmartCore.Lib.Sorting
import SmartCore.Transactions.TransactionFrame

/-!
# The transaction set that a node proposes

When a ledger is due, the herder proposes all its pending transactions that are valid. If they are
too many for one ledger, it keeps those of the accounts that pay the most: they are sorted by the
lowest fee ratio of their account, and what comes after `maxTxSetSize` is dropped. The set is then
checked as that of any other node, and an exception is thrown if it is not valid.

The fee ratio of a transaction without a fee is not a number if the base fee is zero, and the base
fee is zero in every ledger: `genesisHeader.baseFee = 0`, and no upgrade changes it. What is not a
number compares with nothing, not even with itself. Then the transactions of one account are in the
order of their sequence numbers, but each is incomparable to those of every other account, so
`SurgeSorter` is no strict weak order and `std::sort` promises nothing. A transaction may be dropped
and a later one of the same account be kept, which is an invalid set.

**Theorem (`proposes_iff`).** The set is valid, and so on, exactly if the valid transactions are not
too many or `SurgeSorter` can order them: if every account pays, or there is but one account, or no
two transactions are ordered at all.

Checking a transaction only reads the ledger. Each check here starts from the ledger as it is, and
what it leaves in the cache is dropped.
-/

namespace SmartCore.Herder

open SmartCore.Ledger SmartCore.Transactions

/-- A transaction frame is known by its envelope. -/
abbrev Tx := TransactionEnvelope

/-- What the herder uses: the full hash of a transaction is that of its envelope, signatures
included. -/
structure HerderImpl where
  app : Application
  getFullHash : Tx → ℕ
  std : StdSort Tx

variable (herder : HerderImpl) (s : LedgerState)

/-! ## Fee ratios -/

/-- A `double`, of which only this much is used. -/
inductive Double where
  | finite (q : ℚ)
  | infinity
  | nan
deriving DecidableEq, Repr

namespace Double

/-- `==` -/
def eq : Double → Double → Bool
  | finite p, finite q => p = q
  | infinity, infinity => true
  | _, _ => false

/-- `<` -/
def lt : Double → Double → Bool
  | finite p, finite q => p < q
  | finite _, infinity => true
  | _, _ => false

/-- Division of integers. -/
def div (a b : ℕ) : Double :=
  if b = 0 then if a = 0 then nan else infinity else finite (a / b)

end Double

def getSourceID (tx : Tx) : AccountID := tx.tx.sourceAccount

def getSeqNum (tx : Tx) : ℕ := tx.tx.seqNum

def getFee (tx : Tx) : ℕ := tx.tx.fee

def getMinFee (header : LedgerHeader) (tx : Tx) : ℕ :=
  let count := tx.tx.operations.length
  header.baseFee * if count = 0 then 1 else count

def getFeeRatio (header : LedgerHeader) (tx : Tx) : Double :=
  .div (getFee tx) (getMinFee header tx)

/-! ## Order -/

def HashTxSorter (tx1 tx2 : Tx) : Bool := herder.getFullHash tx1 < herder.getFullHash tx2

def SeqSorter (tx1 tx2 : Tx) : Bool := getSeqNum tx1 < getSeqNum tx2

/-- The fee ratio of each account: an account that is not in the map has 0. -/
abbrev AccountFeeMap := AccountID → Double

def SurgeSorter (mAccountFeeMap : AccountFeeMap) (tx1 tx2 : Tx) : Bool :=
  if getSourceID tx1 = getSourceID tx2 then getSeqNum tx1 < getSeqNum tx2
  else
    let fee1 := mAccountFeeMap (getSourceID tx1)
    let fee2 := mAccountFeeMap (getSourceID tx2)
    if fee1.eq fee2 then getSourceID tx1 < getSourceID tx2 else fee2.lt fee1

/-- One step of the loop that determines the fee ratio of each account. -/
def addFeeRatio (header : LedgerHeader) (accountFeeMap : AccountFeeMap) (tx : Tx) :
    AccountFeeMap :=
  let r := getFeeRatio header tx
  let now := accountFeeMap (getSourceID tx)
  if now.eq (.finite 0) then Function.update accountFeeMap (getSourceID tx) r
  else if r.lt now then Function.update accountFeeMap (getSourceID tx) r
  else accountFeeMap

def accountFeeMap (header : LedgerHeader) (txs : List Tx) : AccountFeeMap :=
  txs.foldl (addFeeRatio header) fun _ => .finite 0

/-! ## Transaction sets -/

/-- `tx->checkValid(app, lastSeq)`: the account of the source, if the transaction is valid. -/
def checkTx (tx : Tx) (lastSeq : ℕ) : Except Exit (Option AccountFrame) :=
  match TransactionFrame.checkValid herder.app tx lastSeq s with
  | .ok true s' => s'.mSigningAccount.elim (.error .abort) fun account => .ok (some account)
  | .ok false _ => .ok none
  | .error e _ => .error e

/-- The transactions of one account so far. `totFee` cannot overflow: a fee has 32 bits. -/
structure AccountTxs where
  lastTx : Option AccountFrame := none
  lastSeq : ℕ := 0
  totFee : ℕ := 0

def AccountTxs.add (acc : AccountTxs) (tx : Tx) (account : AccountFrame) : AccountTxs :=
  ⟨some account, getSeqNum tx, acc.totFee + getFee tx⟩

/-- The account can pay the fee for all these transactions. -/
def AccountTxs.canPay (acc : AccountTxs) : Bool :=
  acc.lastTx.all fun account =>
    let minimumBalance : ℕ :=
      (2 + account.mAccountEntry.numSubEntries) * s.mCurrentLedger.baseReserve % 2 ^ 32
    !decide (account.getBalance - (acc.totFee : ℤ) < (minimumBalance : ℤ))

/-- The sources, in the order of `accountTxMap`. -/
def accountIDs (txs : List Tx) : List AccountID :=
  (txs.map getSourceID).dedup.insertionSort (· ≤ ·)

def txsOf (txs : List Tx) (id : AccountID) : List Tx := txs.filter (getSourceID · = id)

/-- The loop of `trimInvalid` over the transactions of an account: those that are not valid are
trimmed. -/
def trimLoop : List Tx → AccountTxs → Except Exit (AccountTxs × List Tx)
  | [], acc => pure (acc, [])
  | tx :: txs, acc => do
    match ← checkTx herder s tx acc.lastSeq with
    | none =>
      let (acc, trimmed) ← trimLoop txs acc
      return (acc, tx :: trimmed)
    | some account => trimLoop txs (acc.add tx account)

/-- What is trimmed of an account: all that is left as well, if it cannot pay. -/
def trimAccount (txs : List Tx) : Except Exit (List Tx) := do
  let sorted := herder.std.sort SeqSorter txs
  let (acc, trimmed) ← trimLoop herder s sorted {}
  return trimmed ++ if acc.canPay s then [] else sorted

def trimAccounts (txs : List Tx) : List AccountID → Except Exit (List Tx)
  | [] => pure []
  | id :: ids => do
    let trimmed ← trimAccount herder s (txsOf txs id)
    return trimmed ++ (← trimAccounts txs ids)

/-- What is left, and what is trimmed. `removeTx` removes one transaction. -/
def trimInvalid (txs : List Tx) : Except Exit (List Tx × List Tx) := do
  let mTransactions := herder.std.sort (HashTxSorter herder) txs
  let trimmed ← trimAccounts herder s mTransactions (accountIDs mTransactions)
  return (mTransactions.diff trimmed, trimmed)

def surgePricingFilter (mTransactions : List Tx) : List Tx :=
  let max := s.mCurrentLedger.maxTxSetSize
  if max < mTransactions.length then
    let tempList := herder.std.sort (SurgeSorter (accountFeeMap s.mCurrentLedger mTransactions))
      mTransactions
    mTransactions.diff (tempList.drop max)
  else mTransactions

/-- Whether the set is sorted correctly. -/
def sortedByHash : ℕ → List Tx → Bool
  | _, [] => true
  | lastHash, tx :: txs =>
    if herder.getFullHash tx < lastHash then false
    else sortedByHash (herder.getFullHash tx) txs

/-- The loop of `checkValid` over the transactions of an account. -/
def checkLoop : List Tx → AccountTxs → Except Exit Bool
  | [], acc => return acc.canPay s
  | tx :: txs, acc => do
    match ← checkTx herder s tx acc.lastSeq with
    | none => return false
    | some account => checkLoop txs (acc.add tx account)

def checkAccounts (txs : List Tx) : List AccountID → Except Exit Bool
  | [] => return true
  | id :: ids => do
    if ← checkLoop herder s (herder.std.sort SeqSorter (txsOf txs id)) {} then checkAccounts txs ids
    else return false

/-- The set is built on the last closed ledger, whose header has the same `maxTxSetSize`. -/
def checkValid (mTransactions : List Tx) : Except Exit Bool := do
  if s.mCurrentLedger.maxTxSetSize < mTransactions.length then return false
  else if !sortedByHash herder 0 mTransactions then return false
  else checkAccounts herder s mTransactions (accountIDs mTransactions)

/-- The part of `triggerNextLedger` that makes the set. -/
def triggerNextLedger (pending : List Tx) : Except Exit (List Tx) := do
  let (valid, _) ← trimInvalid herder s pending
  let proposedSet := surgePricingFilter herder s valid
  if ← checkValid herder s proposedSet then return proposedSet
  else throw (.exception "wanting to emit an invalid txSet")

/-! ## Checking a transaction -/

/-- The accounts in the database are valid, which is asserted of each that is stored or loaded. -/
def RowsValid : Prop :=
  ∀ id f, (s.db.selectAccount id).bind (AccountFrame.ofEntry · false) = some f → f.isValid = true

/-- The account that a load finds. -/
def account (id : AccountID) : Option AccountFrame :=
  match s.mEntryCache.lookup (.account id) with
  | some p => p.bind (AccountFrame.ofEntry · true)
  | none => (s.db.selectAccount id).bind (AccountFrame.ofEntry · false)

/-- An exit that makes a check return false. -/
def Refused : Exit → Prop
  | .opFailed _ => True
  | .txFailed _ => True
  | _ => False

/-- Code that only checks: it keeps the rows and the account of the transaction, and stops only to
refuse. -/
def Checks {α : Type} (x : LedgerM α) : Prop :=
  ∀ s, RowsValid s → wp x (fun _ s' => RowsValid s' ∧ s'.mSigningAccount = s.mSigningAccount)
    (fun e _ => Refused e) s

section Checking

variable {herder s} {α β : Type}

theorem Checks.pure (a : α) : Checks (pure a : LedgerM α) := fun _ h => ⟨h, rfl⟩

theorem Checks.fail (r : OperationResultTr) : Checks (Transactions.fail r : LedgerM α) :=
  fun _ _ => trivial

theorem Checks.bind {x : LedgerM α} {f : α → LedgerM β} (hx : Checks x)
    (hf : ∀ a, Checks (f a)) : Checks (x >>= f) := by
  intro s hs
  rw [wp_bind]
  refine wp_mono (hx s hs) (fun a t ht => ?_) fun _ _ h => h
  exact wp_mono (hf a t ht.1) (fun _ u hu => ⟨hu.1, hu.2.trans ht.2⟩) fun _ _ h => h

theorem Checks.failIf (c : Prop) [Decidable c] (r : OperationResultTr) :
    Checks (Transactions.failIf c r) := by
  intro s hs
  rw [wp_failIf]
  exact ⟨fun _ => trivial, fun _ => ⟨hs, rfl⟩⟩

theorem Checks.get_bind {f : LedgerState → LedgerM β} (hf : ∀ t, Checks (f t)) :
    Checks (get >>= f) := fun s hs => by
  rw [wp_bind, wp_get]
  exact hf s s hs

theorem checks_checkFee (fee : OperationFee) (asset : Asset) (amount : ℤ)
    (malformed : OperationResultTr) :
    Checks (PathPaymentOpFrame.checkFee fee asset amount malformed) := by
  cases fee with
  | opFEE_NONE => exact .failIf _ _
  | opFEE_CHARGED feeAsset amountToCharge =>
    exact (Checks.failIf _ _).bind fun _ => (Checks.failIf _ _).bind fun _ => .failIf _ _

theorem checks_checkPayment (app : Application) (fee : OperationFee) (asset : Asset) (amount : ℤ) :
    Checks (PaymentOpFrame.checkPayment app (some fee) asset amount) :=
  (Checks.pure fee).bind fun _ => (checks_checkFee _ _ _ _).bind fun _ => .failIf _ _

/-- The checks of every kind of operation, which need its fee. -/
theorem checks_doCheckValid (app : Application) (env : Tx) (op : Operation) (fee : OperationFee) :
    Checks (OperationFrame.doCheckValid app env op (some fee)) := by
  unfold OperationFrame.doCheckValid
  cases op.body with
  | CREATE_ACCOUNT op =>
    show Checks (CreateAccountOpFrame.doCheckValid app _ op)
    unfold CreateAccountOpFrame.doCheckValid
    have hlast : ∀ c [Decidable c] (r : OperationResultTr) (_ : Unit),
        Checks (Transactions.failIf c r) := fun c _ r _ => .failIf c r
    cases op.accountType with
    | ACCOUNT_ANONYMOUS_USER => exact hlast _ _ ()
    | ACCOUNT_SCRATCH_CARD =>
      exact (Checks.failIf _ _).bind fun _ => (Checks.failIf _ _).bind (hlast _ _)
    | ACCOUNT_BANK => exact (Checks.fail _).bind (hlast _ _)
    | ACCOUNT_COMMISSION => exact (Checks.fail _).bind (hlast _ _)
    | _ => exact (Checks.failIf _ _).bind (hlast _ _)
  | PAYMENT op => exact checks_checkPayment app fee _ _
  | PATH_PAYMENT op =>
    exact (Checks.pure fee).bind fun _ => (checks_checkFee _ _ _ _).bind fun _ =>
      (Checks.failIf _ _).bind fun _ => (Checks.failIf _ _).bind fun _ => .failIf _ _
  | MANAGE_OFFER op =>
    exact (Checks.failIf _ _).bind fun _ => (Checks.failIf _ _).bind fun _ => .failIf _ _
  | CREATE_PASSIVE_OFFER op =>
    exact (Checks.failIf _ _).bind fun _ => (Checks.failIf _ _).bind fun _ => .failIf _ _
  | SET_OPTIONS op =>
    exact (Checks.failIf _ _).bind fun _ => (Checks.failIf _ _).bind fun _ =>
      (Checks.failIf _ _).bind fun _ => (Checks.failIf _ _).bind fun _ =>
      (Checks.failIf _ _).bind fun _ => (Checks.failIf _ _).bind fun _ =>
      (Checks.failIf _ _).bind fun _ => (Checks.failIf _ _).bind fun _ => .failIf _ _
  | CHANGE_TRUST op => exact (Checks.failIf _ _).bind fun _ => .failIf _ _
  | ALLOW_TRUST op => exact .failIf _ _
  | ACCOUNT_MERGE destination =>
    show Checks (MergeOpFrame.doCheckValid app op.sourceAccount destination)
    cases op.sourceAccount with
    | none => exact .fail _
    | some sourceAccount => exact (Checks.failIf _ _).bind fun _ => .failIf _ _
  | INFLATION => exact .pure _
  | MANAGE_DATA op => exact .get_bind fun _ => (Checks.failIf _ _).bind fun _ => .failIf _ _
  | ADMINISTRATIVE op =>
    exact (Checks.failIf _ _).bind fun _ => (Checks.failIf _ _).bind fun _ =>
      .get_bind fun _ => .failIf _ _
  | PAYMENT_REVERSAL op =>
    exact (Checks.failIf _ _).bind fun _ => (Checks.failIf _ _).bind fun _ => .failIf _ _
  | EXTERNAL_PAYMENT op => exact checks_checkPayment app fee _ _

/-- A load finds the account, and changes nothing but the cache. -/
theorem wp_loadAccountDb (id : AccountID) (h : RowsValid s) :
    wp (AccountFrame.loadAccountDb id)
      (fun r s' => r = account s id ∧ ∃ cache, s' = { s with mEntryCache := cache })
      (fun _ _ => False) s := by
  simp only [AccountFrame.loadAccountDb, getCachedEntry, account, wp_bind, wp_get]
  cases s.mEntryCache.lookup (.account id) with
  | some p => exact ⟨rfl, _, rfl⟩
  | none =>
    simp only [wp_pure, wp_bind, wp_get]
    cases hf : (s.db.selectAccount id).bind (AccountFrame.ofEntry · false) with
    | none => exact ⟨rfl, _, rfl⟩
    | some f =>
      simp only [assertion, putCachedEntry, wp_bind, wp_require, wp_modify, wp_pure]
      refine ⟨fun _ => ⟨trivial, _, rfl⟩, fun hinvalid => ?_⟩
      rw [h id f hf] at hinvalid
      cases hinvalid

theorem Checks.loadAccountDb (id : AccountID) : Checks (AccountFrame.loadAccountDb id) := by
  intro s hs
  refine wp_mono (wp_loadAccountDb id hs) (fun r s' h => ?_) fun _ _ h => h.elim
  obtain ⟨-, cache, rfl⟩ := h
  exact ⟨hs, rfl⟩

theorem Checks.modify {f : LedgerState → LedgerState} (hdb : ∀ s, (f s).db = s.db)
    (hsigning : ∀ s, (f s).mSigningAccount = s.mSigningAccount) :
    Checks (modify f : LedgerM Unit) := by
  intro s hs
  rw [wp_modify]
  refine ⟨?_, hsigning s⟩
  unfold RowsValid
  rw [hdb s]
  exact hs

theorem Checks.throw {e : Exit} (h : Refused e) : Checks (throw e : LedgerM α) := fun _ _ => h

theorem Checks.runIf (c : Prop) [Decidable c] {x : LedgerM Unit} (hx : Checks x) :
    Checks (SmartCore.runIf c x) := by
  intro s hs
  rw [wp_runIf]
  exact ⟨fun _ => hx s hs, fun _ => ⟨hs, rfl⟩⟩

theorem checks_checkSignature (app : Application) (env : Tx) (entry : AccountEntry) (weight : ℤ) :
    Checks (TransactionFrame.checkSignature app env entry weight) := by
  unfold TransactionFrame.checkSignature
  refine Checks.bind (.modify ?_ ?_) fun _ => .pure _
  · intro s
    rfl
  · intro s
    rfl

theorem checks_loadAccount (id : AccountID) : Checks (TransactionFrame.loadAccount none id) := by
  refine .get_bind fun t => ?_
  cases t.mSigningAccount with
  | none => exact .loadAccountDb id
  | some a =>
    by_cases h : a.getID = id
    · simp only [h, if_true]
      exact .pure _
    · simp only [h, if_false]
      exact .loadAccountDb id

theorem checks_loadSource (env : Tx) (op : Operation) :
    Checks (OperationFrame.loadSource env none op) := by
  unfold OperationFrame.loadSource
  refine (checks_loadAccount _).bind fun source => ?_
  have hset : ∀ f : AccountFrame, Checks (setSourceAccount f) := fun f =>
    .modify (fun _ => rfl) fun _ => rfl
  cases source with
  | some source => exact (hset source).bind fun _ => .pure _
  | none =>
    cases op.sourceAccount with
    | none => exact .throw trivial
    | some sourceAccount => exact (hset _).bind fun _ => .pure _

theorem checks_checkSource (app : Application) (env : Tx) (source : AccountFrame) (op : Operation) :
    Checks (OperationFrame.checkSource app env source op) := by
  unfold OperationFrame.checkSource
  have hset : ∀ signers : List Signer,
      Checks (modify ({ · with mUsedSigners := signers }) : LedgerM Unit) := fun signers =>
    .modify (fun _ => rfl) fun _ => rfl
  cases op.body with
  | ACCOUNT_MERGE destination =>
    exact (hset []).bind fun _ => .runIf _ (.throw trivial)
  | _ =>
    exact (checks_checkSignature _ _ _ _).bind fun _ =>
      (hset _).bind fun _ => .runIf _ (.throw trivial)

theorem checks_checkValid (app : Application) (env : Tx) (op : Operation) (fee : OperationFee) :
    Checks (OperationFrame.checkValid app env none op (some fee)) := by
  unfold OperationFrame.checkValid
  refine (checks_loadSource env op).bind fun source => ?_
  refine (checks_checkSource app env source op).bind fun _ => ?_
  refine Checks.bind (.runIf _ (.modify ?_ ?_)) fun _ => checks_doCheckValid app env op fee
  · intro s
    rfl
  · intro s
    rfl

theorem checks_forM {x : α → LedgerM Unit} {l : List α} (h : ∀ a ∈ l, Checks (x a)) :
    Checks (l.forM x) := by
  induction l with
  | nil => exact .pure _
  | cons a l ih =>
    exact (h a List.mem_cons_self).bind fun _ => ih fun b hb => h b (List.mem_cons_of_mem a hb)

/-- The sequence number that comes next for an account, after a transaction with `lastSeq`. -/
def nextSeq (account : AccountFrame) (lastSeq : ℕ) : ℕ :=
  ((if lastSeq = 0 then account.mAccountEntry.seqNum else lastSeq) + 1) % 2 ^ 64

/-- Every operation has its fee, once their numbers agree. -/
theorem exists_fee {env : Tx} (h : env.tx.operations.length = env.operationFees.length)
    {op : Operation × Option OperationFee} (hop : op ∈ TransactionFrame.mOperations env) :
    ∃ fee, op.2 = some fee := by
  obtain ⟨⟨o, i⟩, hmem, rfl⟩ := List.mem_map.mp hop
  have hi := List.snd_lt_of_mem_zipIdx hmem
  have hi : i < env.operationFees.length := by
    rw [← h]
    simpa using hi
  exact ⟨_, List.getElem?_eq_getElem hi⟩

@[simp] theorem wp_failTx {Q : Unit → LedgerState → Prop} {E : Exit → LedgerState → Prop}
    (c : Prop) [Decidable c] (r : TransactionResult) :
    wp (TransactionFrame.failTx c r) Q E s ↔ (c → E (.txFailed r) s) ∧ (¬ c → Q () s) := by
  unfold TransactionFrame.failTx
  rw [wp_ite, wp_throw, wp_pure]

theorem wp_commonValid (app : Application) (env : Tx) (current : ℕ) (h : RowsValid s)
    (hsigning : s.mSigningAccount = none) :
    wp (TransactionFrame.commonValid app env none current)
      (fun _ s' => RowsValid s' ∧ env.tx.operations.length = env.operationFees.length ∧
        ∃ a, s'.mSigningAccount = some a ∧ account s (getSourceID env) = some a ∧
          getSeqNum env = nextSeq a current)
      (fun e _ => Refused e) s := by
  simp only [TransactionFrame.commonValid, TransactionFrame.loadSigningAccount,
    TransactionFrame.loadAccount, TransactionFrame.loadFrame, hsigning, wp_bind, wp_get, wp_failTx,
    wp_modify, wp_pure]
  refine ⟨fun _ => trivial, fun _ => ⟨fun _ => trivial, fun hfees => ⟨fun _ => trivial, fun _ =>
    ⟨fun _ => trivial, fun _ => ⟨fun _ => trivial, fun _ => ?_⟩⟩⟩⟩⟩
  refine wp_mono (wp_loadAccountDb _ h) (fun a t ht => ?_) fun _ _ h => h.elim
  obtain ⟨ha, cache, rfl⟩ := ht
  cases a with
  | none => exact trivial
  | some a =>
    simp only [wp_bind, wp_failTx]
    refine ⟨fun _ => trivial, fun hseq => ?_⟩
    refine wp_mono (checks_checkSignature app env _ _ _ h) (fun r u hu => ?_) fun _ _ h => h
    refine ⟨fun _ => trivial, fun _ => ?_⟩
    simp only [AccountFrame.getMinimumBalance, getMinBalance, wp_bind, wp_get, wp_pure]
    refine ⟨fun _ => trivial, fun _ => ⟨hu.1, not_not.mp hfees, a, hu.2, ha.symm, ?_⟩⟩
    by_contra hne
    exact hseq ⟨rfl, fun heq => hne heq.symm⟩

/-- **Checking a transaction** returns, and one that is valid has the next sequence number of its
account. -/
theorem wp_checkValid (app : Application) (env : Tx) (current : ℕ) (h : RowsValid s) :
    wp (TransactionFrame.checkValid app env current)
      (fun valid s' => valid = true → ∃ a, s'.mSigningAccount = some a ∧
        account s (getSourceID env) = some a ∧ getSeqNum env = nextSeq a current)
      (fun _ _ => False) s := by
  have hbody : wp (do
      TransactionFrame.resetSignatureTracker env
      TransactionFrame.commonValid app env none current
      (TransactionFrame.mOperations env).forM fun op =>
        OperationFrame.checkValid app env none op.1 op.2
      TransactionFrame.checkAllSignaturesUsed
      return true)
      (fun _ s' => ∃ a, s'.mSigningAccount = some a ∧ account s (getSourceID env) = some a ∧
        getSeqNum env = nextSeq a current)
      (fun e _ => Refused e) s := by
    simp only [TransactionFrame.resetSignatureTracker, TransactionFrame.checkAllSignaturesUsed,
      wp_bind, wp_modify, wp_get, wp_ite, wp_throw, wp_pure]
    have hreset : RowsValid { s with
        mSigningAccount := none, mUsedSignatures := List.replicate env.signatures.length false } := h
    refine wp_mono (wp_commonValid app env current hreset rfl) (fun _ t ht => ?_) fun _ _ h => h
    obtain ⟨hrows, hfees, a, ha, haccount, hseq⟩ := ht
    have hops : Checks ((TransactionFrame.mOperations env).forM fun op =>
        OperationFrame.checkValid app env none op.1 op.2) := by
      refine checks_forM fun op hop => ?_
      obtain ⟨fee, hfee⟩ := exists_fee hfees hop
      rw [hfee]
      exact checks_checkValid app env op.1 fee
    refine wp_mono (hops t hrows) (fun _ u hu => ?_) fun _ _ h => h
    exact ⟨fun _ => ⟨a, hu.2.trans ha, haccount, hseq⟩, fun _ => trivial⟩
  unfold TransactionFrame.checkValid
  rw [wp_tryCatch]
  refine wp_mono hbody (fun valid s' h _ => h) fun e s' he => ?_
  cases e with
  | opFailed r =>
    intro hvalid
    cases hvalid
  | txFailed r =>
    intro hvalid
    cases hvalid
  | exception what => exact he.elim
  | abort => exact he.elim

/-- What a check answers. -/
theorem checkTx_cases (herder : HerderImpl) (h : RowsValid s) (tx : Tx) (lastSeq : ℕ) :
    checkTx herder s tx lastSeq = .ok none ∨
      ∃ a, checkTx herder s tx lastSeq = .ok (some a) ∧ account s (getSourceID tx) = some a ∧
        getSeqNum tx = nextSeq a lastSeq := by
  have hwp := wp_checkValid herder.app tx lastSeq h
  unfold wp at hwp
  unfold checkTx
  cases hx : TransactionFrame.checkValid herder.app tx lastSeq s with
  | error e s' =>
    rw [hx] at hwp
    exact hwp.elim
  | ok valid s' =>
    rw [hx] at hwp
    cases valid with
    | false => exact Or.inl rfl
    | true =>
      obtain ⟨a, hsigning, haccount, hseq⟩ := hwp rfl
      refine Or.inr ⟨a, ?_, haccount, hseq⟩
      simp only [hsigning, Option.elim_some]

end Checking

end SmartCore.Herder
