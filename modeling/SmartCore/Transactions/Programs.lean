import SmartCore.Transactions.Program

/-!
# Operations are programs

Goes through `doCheckValid` and `doApply` of every kind of operation once, and shows that they are
programs (`Program.doApply`). What a custody has to allow for that is what the operation does: the
type of an account that it creates, the account that it merges, a signer that it adds, a payment
that it marks as reversed (`Admits`).
-/

namespace SmartCore.Transactions

open SmartCore.Ledger

variable {c : Custody} {m : Mode} {d : ℕ} {app : Application}

namespace Program

/-! ## Frames -/

theorem getMinBalance {ownerCount : ℕ} : Program c m (Ledger.getMinBalance ownerCount) fun _ => True :=
  get.seq fun _ => .pure True.intro

theorem addNumEntries {f : AccountFrame} {count : ℤ} :
    Program c m (f.addNumEntries count) fun o => ∀ f' ∈ o, SameAccount f f' := by
  rw [AccountFrame.addNumEntries]
  refine .ite (fun _ => .throw _) fun _ => getMinBalance.seq fun _ => .ite (fun _ => .pure nofun)
    fun _ => .pure ?_
  rintro f' ⟨rfl⟩
  exact ⟨rfl, rfl, rfl, rfl⟩

theorem getBalanceAboveReserve {f : AccountFrame} :
    Program c m f.getBalanceAboveReserve fun _ => True :=
  getMinBalance.seq fun _ => .pure True.intro

theorem lineBalance {f : TrustFrame} : Program c m f.getBalance fun _ => True :=
  assertion.seq fun _ => .pure True.intro

theorem recordEntry {entry : LedgerEntry} :
    Program c (.inside d) (Ledger.recordEntry d entry) fun _ => True :=
  .load (wpLoaded_recordEntry d entry) (.updateDelta _ _)

theorem loadTrustLine {id : AccountID} {asset : Asset} :
    Program c (.inside d) (TrustFrame.loadTrustLine d id asset) fun _ => True :=
  .load (TrustFrame.wpLoaded_loadTrustLine d id asset) (.loadTrustLine d id asset)

theorem loadTrustLineIssuer {id : AccountID} {asset : Asset} :
    Program c (.inside d) (TrustFrame.loadTrustLineIssuer d id asset) fun _ => True :=
  loadTrustLine.seq fun _ => (loadAccount _).seq fun _ => .pure True.intro

theorem loadBestOffers {computePrice : Price → ℤ} {numOffers offset : ℕ} {selling buying : Asset} :
    Program c (.inside d)
      (OfferFrame.loadBestOffers computePrice numOffers offset selling buying) fun _ => True :=
  .load (OfferFrame.wpLoaded_loadBestOffers computePrice numOffers offset selling buying)
    (.loadBestOffers computePrice numOffers offset selling buying)

theorem lineStoreChange {f : TrustFrame} {e : ℕ} (he : m.Takes .change e f.getKey) :
    Program c m (f.storeChange e) fun _ => True :=
  .store he (fun _ => TrustFrame.wp_storeChange) nofun (.trustLine_storeChange f e)
    (.trustLine_storeChange f)

theorem lineStoreAdd {f : TrustFrame} : Program c (.inside d) (f.storeAdd d) fun _ => True :=
  .store takes_inside (fun _ => TrustFrame.wp_storeAdd) nofun (.trustLine_storeAdd f _)
    (.trustLine_storeAdd f)

theorem lineStoreDelete {f : TrustFrame} : Program c (.inside d) (f.storeDelete d) fun _ => True :=
  .store takes_inside (fun _ => TrustFrame.wp_storeDelete) nofun (.trustLine_storeDelete f _)
    (.trustLine_storeDelete f)

theorem offerStoreChange {f : OfferFrame} : Program c m (f.storeChange m.delta) fun _ => True :=
  .store (m.takes_offer _ f) (fun _ => OfferFrame.wp_storeChange) nofun (.offer_storeChange f _)
    (.offer_storeChange f)

theorem offerStoreAdd {f : OfferFrame} : Program c m (f.storeAdd m.delta) fun _ => True :=
  .store (m.takes_offer _ f) (fun _ => OfferFrame.wp_storeAdd) nofun (.offer_storeAdd f _)
    (.offer_storeAdd f)

theorem offerStoreDelete {f : OfferFrame} : Program c m (f.storeDelete m.delta) fun _ => True :=
  .store (m.takes_offer _ f) (fun _ => OfferFrame.wp_storeDelete) nofun (.offer_storeDelete f _)
    (.offer_storeDelete f)

theorem dataStoreChange {f : DataFrame} : Program c (.inside d) (f.storeChange d) fun _ => True :=
  .store takes_inside (fun _ => DataFrame.wp_storeChange) nofun (.data_storeChange f _)
    (.data_storeChange f)

theorem dataStoreAdd {f : DataFrame} : Program c (.inside d) (f.storeAdd d) fun _ => True :=
  .store takes_inside (fun _ => DataFrame.wp_storeAdd) nofun (.data_storeAdd f _)
    (.data_storeAdd f)

theorem dataStoreDelete {f : DataFrame} : Program c (.inside d) (f.storeDelete d) fun _ => True :=
  .store takes_inside (fun _ => DataFrame.wp_storeDelete) nofun (.data_storeDelete f _)
    (.data_storeDelete f)

/-! ## The source -/

theorem modifySourceAccount {change : AccountEntry → AccountEntry}
    (h : ∀ f, c.HoldsSource f → c.HoldsSource { f with mAccountEntry := change f.mAccountEntry }) :
    Program c m (Transactions.modifySourceAccount change) fun _ => True :=
  getSource.bind fun f hf => setSource (h f hf)

/-- A change that keeps the type, the thresholds and the signers. -/
theorem modifySource_seq {α : Type} {R : α → Prop} {change : AccountEntry → AccountEntry}
    {f : Unit → LedgerM α}
    (h : ∀ a, (change a).accountID = a.accountID ∧ (change a).accountType = a.accountType ∧
      (change a).thresholds = a.thresholds ∧ (change a).signers = a.signers) (hf : Program c m (f ()) R) :
    Program c m (Transactions.modifySourceAccount change >>= f) R :=
  (modifySourceAccount fun _ hsource => hsource.same
    ⟨(h _).1, (h _).2.1, (h _).2.2.1, (h _).2.2.2⟩).seq fun _ => hf

theorem storeSourceAccount : Program c m (Transactions.storeSourceAccount m.delta) fun _ => True :=
  getSource.bind fun _ hf => (storeChange hf.1 (m.takes_change _)).bind fun _ hs => setSource (hf.same hs)

/-! ## Change trust and create account -/

theorem changeTrust_doCheckValid {op : ChangeTrustOp} :
    Program c m (ChangeTrustOpFrame.doCheckValid app op) fun _ => True :=
  failIf.seq fun _ => failIf.trivial

theorem changeTrust_doApply {account : AccountFrame} (h : c.Holds account) {op : ChangeTrustOp} :
    Program c (.inside d) (ChangeTrustOpFrame.doApply d account op)
      fun r => SameAccount account r.2 := by
  rw [ChangeTrustOpFrame.doApply]
  refine loadTrustLineIssuer.seq fun r => ?_
  split
  · refine lineBalance.seq fun _ => failIf.seq fun _ => .ite (fun _ => ?_) fun _ => ?_
    · refine lineStoreDelete.seq fun _ => addNumEntries.bind fun o ho => ?_
      refine (deref (R := SameAccount account) ho).bind fun account' hsame => ?_
      exact (storeChange (h.same hsame) takes_inside).bind fun _ hs => .pure (hsame.trans hs)
    · exact failIf.seq fun _ => (lineStoreChange takes_inside).seq fun _ => .pure (.refl account)
  · refine failIf.seq fun _ => ?_
    split
    · exact fail
    · refine addNumEntries.bind fun o ho => ?_
      split
      · exact fail
      · have hsame := ho _ rfl
        refine (storeChange (h.same hsame) takes_inside).bind fun account' hs => ?_
        exact lineStoreAdd.seq fun _ => .pure (hsame.trans hs)

theorem createTrustLine {account : AccountFrame} (h : c.Holds account) {asset : Asset} :
    Program c (.inside d) (Transactions.createTrustLine app d account asset)
      fun o => ∀ r ∈ o, SameAccount account r.2 := by
  rw [Transactions.createTrustLine]
  refine .catchFailed ?_ (fun r => ?_) fun e he => ?_
  · refine changeTrust_doCheckValid.seq fun _ => (changeTrust_doApply h).bind fun r hr => .pure ?_
    rintro r' ⟨rfl⟩
    exact hr
  · rcases r with tr | _ | _
    · cases tr with
      | changeTrustResult r =>
        cases r <;> simp only
        case CHANGE_TRUST_NO_ISSUER | CHANGE_TRUST_LOW_RESERVE => exact .pure (by simp)
        all_goals exact .throw _
      | _ =>
        simp only
        exact .throw _
    all_goals
      simp only
      exact .throw _
  · cases e with
    | opFailed r => exact absurd rfl (he r)
    | _ => rfl

theorem createAccount_doCheckValid {sourceID : AccountID} {op : CreateAccountOp} :
    Program c m (CreateAccountOpFrame.doCheckValid app sourceID op) fun _ => True := by
  rw [CreateAccountOpFrame.doCheckValid]
  split
  · exact failIf.trivial
  · exact failIf.seq fun _ => failIf.seq fun _ => failIf.trivial
  all_goals first
    | exact failIf.seq fun _ => failIf.trivial
    | exact (fail (R := fun _ => True)).seq fun _ => failIf.trivial

theorem createDestAccount {op : CreateAccountOp} (h : c.newType op.accountType) :
    Program c (.inside d) (CreateAccountOpFrame.createDestAccount d op) c.Holds := by
  rw [CreateAccountOpFrame.createDestAccount]
  refine (loadAccount _).seq fun o => getSource.seq fun _ => failIf.seq fun _ => ?_
  split
  · exact fail
  · exact (storeAdd h rfl).mono fun _ hf => hf.1

/-! ## Crossing offers -/

theorem bigDivide {A B C : ℤ} : Program c m (Transactions.bigDivide A B C) fun _ => True :=
  assertion.seq fun _ => .pure True.intro

theorem bigDivideOrThrow {A B C : ℤ} :
    Program c m (Transactions.bigDivideOrThrow A B C) fun _ => True := by
  refine bigDivide.seq fun o => ?_
  cases o with
  | none => exact .throw _
  | some result => exact .pure True.intro

theorem addNative {account : AccountFrame} (h : c.Holds account) {amount : ℤ} {e : ℕ}
    (he : m.Takes .change e account.getKey) :
    Program c m (PathPaymentOpFrame.addNative e account amount) (SameAccount account) :=
  (storeChange (f := { account with mAccountEntry := { account.mAccountEntry with
    balance := int64 (account.getBalance + amount) } }) h he).mono
    fun _ hs => ⟨hs.id, hs.type, hs.thresholds, hs.signers⟩

open OfferExchange

theorem sellerMaxWheat {offer : OfferEntry} :
    Program c (.inside d) (OfferExchange.sellerMaxWheat d offer) fun _ => True :=
  .ite (fun _ => .pure True.intro) fun _ => loadTrustLine.seq fun _ => bigDivide.seq fun _ =>
    .pure True.intro

theorem wheatCanSell {accountB : AccountFrame} {wheat : Asset} {line : Option TrustFrame} :
    Program c m (OfferExchange.wheatCanSell accountB wheat line) fun _ => True := by
  refine .ite (fun _ => getBalanceAboveReserve) fun _ => ?_
  cases line with
  | none => exact .pure True.intro
  | some line => exact .ite (fun _ => lineBalance) fun _ => .pure True.intro

theorem reduceOffer {offer : OfferFrame} {accountB : AccountFrame} (h : c.Holds accountB)
    {offerTaken : Bool} {numWheatReceived : ℤ} :
    Program c (.inside d) (OfferExchange.reduceOffer d offer accountB offerTaken numWheatReceived)
      (SameAccount accountB) := by
  refine .ite (fun _ => offerStoreDelete.seq fun _ => addNumEntries.bind fun o ho => ?_)
    fun _ => offerStoreChange.seq fun _ => .pure (.refl accountB)
  refine (deref (R := SameAccount accountB) ho).bind fun accountB' hsame => ?_
  exact (storeChange (h.same hsame) takes_inside).mono fun _ hs => hsame.trans hs

theorem adjust {accountB : AccountFrame} (h : c.Holds accountB) {asset : Asset}
    {line : Option TrustFrame} {amount : ℤ} :
    Program c (.inside d) (OfferExchange.adjust d accountB asset line amount)
      fun o => ∀ f ∈ o, SameAccount accountB f := by
  have hself : ∀ f ∈ some accountB, SameAccount accountB f := by
    rintro f ⟨rfl⟩
    exact .refl accountB
  refine .ite (fun _ => .pure hself) fun _ => .ite (fun _ => ?_) fun _ => ?_
  · refine (addNative h takes_inside).bind fun f hs => .pure ?_
    rintro f' ⟨rfl⟩
    exact hs
  · refine (deref (R := fun _ => True) fun _ _ => True.intro).seq fun line => ?_
    split
    · exact .pure nofun
    · exact (lineStoreChange takes_inside).seq fun _ => .pure hself

theorem crossOffer {offer : OfferFrame} {maxWheatReceived maxSheepSend : ℤ} :
    Program c (.inside d) (OfferExchange.crossOffer d offer maxWheatReceived maxSheepSend)
      fun _ => True := by
  refine recordEntry.seq fun _ => (loadAccount _).bind fun o ho => ?_
  cases o with
  | none => exact .throw _
  | some accountB =>
    have hB : c.Holds accountB := (ho accountB rfl).1
    dsimp only
    -- the trust line of the wheat does not matter
    refine .ite (fun _ => (Program.pure (R := fun _ => True) True.intro).seq fun _ => ?_)
      fun _ => loadTrustLine.seq fun _ => ?_
    all_goals
      refine sellerMaxWheat.seq fun r => wheatCanSell.seq fun _ => bigDivide.seq fun _ =>
        bigDivideOrThrow.seq fun _ => ?_
      refine .ite (fun _ => .pure True.intro) fun _ => (reduceOffer hB).bind fun accountB' hs => ?_
      refine (adjust (hB.same hs)).bind fun o ho => ?_
      cases o with
      | none => exact .pure True.intro
      | some accountB'' =>
        refine (adjust ((hB.same hs).same (ho _ rfl))).seq fun o => ?_
        cases o <;> exact .pure True.intro

theorem crossOffers {filter : OfferFrame → OfferFilterResult} {retList : List OfferFrame}
    {conv : Conversion} :
    Program c (.inside d) (OfferExchange.crossOffers d filter retList conv) fun _ => True := by
  induction retList generalizing conv with
  | nil => exact .pure True.intro
  | cons wheatOffer retList ih =>
    rw [OfferExchange.crossOffers]
    split
    · exact .pure True.intro
    · exact ih
    · exact crossOffer.seq fun x => .ite (fun _ => .pure True.intro) fun _ =>
        .ite (fun _ => .pure True.intro) fun _ => .ite (fun _ => .pure True.intro) fun _ => ih

theorem convertBatches {sheep wheat : Asset} {filter : OfferFrame → OfferFilterResult}
    {batches : ℕ} {conv : Conversion} :
    Program c (.inside d) (OfferExchange.convertBatches app d sheep wheat filter batches conv)
      fun _ => True := by
  induction batches generalizing conv with
  | zero => exact .pure True.intro
  | succ batches ih =>
    refine .ite (fun _ => .pure True.intro) fun _ => loadBestOffers.seq fun _ =>
      crossOffers.seq fun r => ?_
    split
    · exact .pure True.intro
    · exact .ite (fun _ => .pure True.intro) fun _ => ih

theorem convertWithOffers {sheep wheat : Asset} {maxSheepSend maxWheatReceive : ℤ}
    {filter : OfferFrame → OfferFilterResult} :
    Program c (.inside d)
      (OfferExchange.convertWithOffers app d sheep maxSheepSend wheat maxWheatReceive filter)
      fun _ => True :=
  get.seq fun _ => convertBatches

/-! ## Path payment -/

theorem checkFee {fee : OperationFee} {asset : Asset} {amount : ℤ} {malformed : OperationResultTr} :
    Program c m (PathPaymentOpFrame.checkFee fee asset amount malformed) fun _ => True := by
  cases fee with
  | opFEE_NONE => exact failIf.trivial
  | opFEE_CHARGED feeAsset amountToCharge =>
    exact failIf.seq fun _ => failIf.seq fun _ => failIf.trivial

theorem pathPayment_doCheckValid {fee : Option OperationFee} {op : PathPaymentOp} :
    Program c m (PathPaymentOpFrame.doCheckValid app fee op) fun _ => True :=
  (deref (R := fun _ => True) fun _ _ => True.intro).seq fun _ => checkFee.seq fun _ =>
    failIf.seq fun _ => failIf.seq fun _ => failIf.trivial

theorem getCommissionDest {account : AccountFrame} (h : c.Holds account) {asset : Asset} :
    Program c (.inside d) (PathPaymentOpFrame.getCommissionDest d account asset)
      fun _ => True := by
  rw [PathPaymentOpFrame.getCommissionDest]
  refine loadTrustLine.seq fun o => ?_
  split
  · exact .pure True.intro
  · refine (loadAccount _).seq fun _ => (deref (R := fun _ => True) fun _ _ => True.intro).seq
      fun issuer => addNumEntries.bind fun o ho => ?_
    split
    · exact .pure True.intro
    · exact (storeChange (h.same (ho _ rfl)) takes_inside).seq fun _ => lineStoreAdd.seq fun _ =>
        .pure True.intro

theorem createDestination (h : c.newType .ACCOUNT_ANONYMOUS_USER)
    {sourceID destination : AccountID} :
    Program c (.inside d) (PathPaymentOpFrame.createDestination app d sourceID destination)
      fun o => ∀ f ∈ o, c.Holds f := by
  rw [PathPaymentOpFrame.createDestination]
  refine .catchFailed ?_ (fun r => ?_) fun e he => ?_
  · refine createAccount_doCheckValid.seq fun _ => (createDestAccount h).bind fun f hf => .pure ?_
    rintro f' ⟨rfl⟩
    exact hf
  · rcases r with tr | _ | _
    · cases tr with
      | createAccountResult r =>
        cases r <;> simp only
        case CREATE_ACCOUNT_UNDERFUNDED | CREATE_ACCOUNT_LOW_RESERVE |
          CREATE_ACCOUNT_NOT_AUTHORIZED_TYPE => exact .pure (by simp)
        all_goals exact .throw _
      | _ =>
        simp only
        exact .throw _
    all_goals
      simp only
      exact .throw _
  · cases e with
    | opFailed r => exact absurd rfl (he r)
    | _ => rfl

theorem loadDestination (h : c.newType .ACCOUNT_ANONYMOUS_USER) {sourceID : AccountID}
    {op : PathPaymentOp} :
    Program c (.inside d) (PathPaymentOpFrame.loadDestination app d sourceID op) c.Holds := by
  rw [PathPaymentOpFrame.loadDestination]
  refine (loadAccount _).bind fun o ho => ?_
  split
  · exact .pure (ho _ rfl).1
  · refine (createDestination h).bind fun o ho => ?_
    split
    · exact fail
    · have hdest := ho _ rfl
      refine .ite (fun _ => .pure hdest) fun _ => (createTrustLine hdest).bind fun o ho => ?_
      split
      · exact fail
      · exact .pure (hdest.same (ho _ rfl))

theorem payNative {destination commissionDestination : AccountFrame} (h : c.Holds destination)
    (h' : c.Holds commissionDestination) {curBReceived curBCommission : ℤ} :
    Program c (.inside d) (PathPaymentOpFrame.payNative d destination commissionDestination
      curBReceived curBCommission) fun _ => True :=
  failIf.seq fun _ => (addNative h takes_inside).seq fun _ => (addNative h' takes_inside).seq
    fun _ => .pure True.intro

theorem loadDestLine {destination : AccountFrame} (h : c.Holds destination) {op : PathPaymentOp} :
    Program c (.inside d) (PathPaymentOpFrame.loadDestLine app d destination op)
      fun _ => True := by
  rw [PathPaymentOpFrame.loadDestLine]
  refine loadTrustLineIssuer.seq fun r => ?_
  split
  · exact fail
  · exact .pure True.intro
  · exact (createTrustLine h).seq fun _ => (deref (R := fun _ => True) fun _ _ => True.intro).seq
      fun _ => .pure True.intro

theorem payCredit {isCreate : Bool} {destination commissionDestination : AccountFrame}
    (h : c.Holds destination) (h' : c.Holds commissionDestination) {op : PathPaymentOp}
    {curBReceived curBCommission : ℤ} :
    Program c (.inside d) (PathPaymentOpFrame.payCredit app d isCreate destination
      commissionDestination op curBReceived curBCommission) fun _ => True := by
  rw [PathPaymentOpFrame.payCredit]
  refine (loadDestLine h).seq fun destLine => failIf.seq fun _ => failIf.seq fun _ => ?_
  split
  · exact fail
  · refine (getCommissionDest h').seq fun o => ?_
    split
    · exact fail
    · split
      · exact fail
      · exact (lineStoreChange takes_inside).seq fun _ => (lineStoreChange takes_inside).seq
          fun _ => .pure True.intro

theorem walkPath {sourceID : AccountID} {path : List Asset} {curB : Asset} {curBNeedToSend : ℤ}
    {offers : List ClaimOfferAtom} :
    Program c (.inside d)
      (PathPaymentOpFrame.walkPath app d sourceID path curB curBNeedToSend offers)
      fun _ => True := by
  induction path generalizing curB curBNeedToSend offers with
  | nil => exact .pure True.intro
  | cons curA path ih =>
    rw [PathPaymentOpFrame.walkPath]
    refine .ite (fun _ => ih) fun _ => (runIf fun _ => (loadAccount _).seq fun _ =>
      failIf.trivial).seq fun _ => convertWithOffers.seq fun r => ?_
    dsimp only
    split
    · exact fail
    · exact fail
    · exact failIf.seq fun _ => ih

theorem loadSourceLine {sourceID : AccountID} {asset : Asset}
    {noIssuer noTrust : OperationResultTr} :
    Program c (.inside d) (PathPaymentOpFrame.loadSourceLine app d sourceID asset noIssuer noTrust)
      fun _ => True := by
  rw [PathPaymentOpFrame.loadSourceLine]
  refine loadTrustLineIssuer.seq fun r => ?_
  split
  · exact fail
  · exact .pure True.intro
  · refine .ite (fun _ => getSource.bind fun source hsource =>
      (createTrustLine hsource.1).bind fun o ho => ?_) fun _ => fail
    split
    · exact fail
    · exact (setSource (hsource.same (ho _ rfl))).seq fun _ => .pure True.intro

theorem debitSource {sourceID : AccountID} {curB : Asset} {curBSent : ℤ} :
    Program c (.inside d) (PathPaymentOpFrame.debitSource app d sourceID curB curBSent)
      fun _ => True := by
  rw [PathPaymentOpFrame.debitSource]
  refine .ite (fun _ => ?_) fun _ => ?_
  · exact getSource.bind fun source hsource => getMinBalance.seq fun _ => failIf.seq fun _ =>
      (addNative hsource.1 takes_inside).bind fun _ hs => setSource (hsource.same hs)
  · refine loadSourceLine.seq fun line => failIf.seq fun _ => ?_
    split
    · exact fail
    · exact (lineStoreChange takes_inside).seq fun _ => .pure True.intro

theorem pathPayment_doApply (h : c.newType .ACCOUNT_ANONYMOUS_USER) {sourceID : AccountID}
    {fee : Option OperationFee} {isCreate : Bool} {op : PathPaymentOp} :
    Program c (.inside d) (PathPaymentOpFrame.doApply app d sourceID fee isCreate op)
      fun _ => True := by
  rw [PathPaymentOpFrame.doApply]
  refine (deref (R := fun _ => True) fun _ _ => True.intro).seq fun fee => (note _).seq fun _ =>
    (loadAccount _).bind fun o ho => (deref (R := c.Holds) fun f hf => (ho f hf).1).bind
      fun commissionDestination hcommission => (loadDestination h).bind fun destination hdest => ?_
  dsimp only
  refine .ite (fun _ => (payNative hdest hcommission).seq fun _ => ?_)
    fun _ => (payCredit hdest hcommission).seq fun _ => ?_
  all_goals
    exact walkPath.seq fun r => failIf.seq fun _ => debitSource.seq fun _ => .pure True.intro

theorem payAsset (h : c.newType .ACCOUNT_ANONYMOUS_USER) {sourceID : AccountID}
    {fee : Option OperationFee} {isCreate : Bool} {destination : AccountID} {asset : Asset}
    {amount : ℤ} {translate : PathPaymentResult → Option OperationResultTr} :
    Program c (.inside d)
      (Transactions.payAsset app d sourceID fee isCreate destination asset amount translate)
      fun _ => True := by
  rw [Transactions.payAsset]
  refine .catchFailed ?_ (fun r => ?_) fun e he => ?_
  · exact pathPayment_doCheckValid.seq fun _ => (pathPayment_doApply h).seq fun _ =>
      .pure True.intro
  · rcases r with tr | _ | _
    · cases tr with
      | pathPaymentResult r =>
        simp only
        split
        · exact fail
        · exact .throw _
      | _ =>
        simp only
        exact .throw _
    all_goals
      simp only
      exact .throw _
  · cases e with
    | opFailed r => exact absurd rfl (he r)
    | _ => rfl

theorem createAccount_doApply {sourceID : AccountID} {fee : Option OperationFee}
    {op : CreateAccountOp} (h : c.newType .ACCOUNT_ANONYMOUS_USER)
    (h' : c.newType op.accountType) :
    Program c (.inside d) (CreateAccountOpFrame.doApply app d sourceID fee op) fun _ => True :=
  (createDestAccount h').seq fun _ => (runIf fun _ => payAsset h).seq fun _ => .pure True.intro

theorem checkPayment {fee : Option OperationFee} {asset : Asset} {amount : ℤ} :
    Program c m (PaymentOpFrame.checkPayment app fee asset amount) fun _ => True :=
  (deref (R := fun _ => True) fun _ _ => True.intro).seq fun _ => checkFee.seq fun _ =>
    failIf.trivial

/-! ## Payment reversal -/

theorem paymentReversal_doCheckValid {op : PaymentReversalOp} :
    Program c m (PaymentReversalOpFrame.doCheckValid app op) fun _ => True :=
  failIf.seq fun _ => failIf.seq fun _ => failIf.trivial

theorem checkAlreadyReversed {op : PaymentReversalOp} (h : c.reversible op.paymentID) :
    Program c (.inside d) (PaymentReversalOpFrame.checkAlreadyReversed d op) fun _ => True :=
  read.seq fun _ => .ite (fun _ => .pure True.intro) fun _ => (storeReversed h).seq fun _ =>
    .pure True.intro

theorem loadSenderLine {op : PaymentReversalOp} :
    Program c (.inside d) (PaymentReversalOpFrame.loadSenderLine app d op) fun _ => True := by
  rw [PaymentReversalOpFrame.loadSenderLine]
  refine loadTrustLineIssuer.seq fun r => ?_
  split
  · exact fail
  · exact .pure True.intro
  · refine (loadAccount _).bind fun o ho => ?_
    split
    · exact fail
    · refine (createTrustLine (ho _ rfl).1).seq fun o => ?_
      split
      · exact fail
      · exact .pure True.intro

theorem addAndStore {line : TrustFrame} {amount : ℤ} {r : PaymentReversalResult} :
    Program c (.inside d) (PaymentReversalOpFrame.addAndStore d line amount r) fun _ => True := by
  rw [PaymentReversalOpFrame.addAndStore]
  split
  · exact fail
  · exact (lineStoreChange takes_inside).seq fun _ => .pure True.intro

theorem paymentReversal_doApply {sourceID : AccountID} {op : PaymentReversalOp}
    (h : c.reversible op.paymentID) :
    Program c (.inside d) (PaymentReversalOpFrame.doApply app d sourceID op) fun _ => True := by
  rw [PaymentReversalOpFrame.doApply]
  refine failIf.seq fun _ => (checkAlreadyReversed h).seq fun _ => failIf.seq fun _ =>
    loadTrustLine.seq fun o => ?_
  split
  · exact (fail (R := fun _ => True)).seq fun _ => loadSourceLine.seq fun _ => failIf.seq fun _ =>
      addAndStore.seq fun _ => loadSenderLine.seq fun _ => failIf.seq fun _ => addAndStore.seq
        fun _ => .pure True.intro
  · exact addAndStore.seq fun _ => loadSourceLine.seq fun _ => failIf.seq fun _ =>
      addAndStore.seq fun _ => loadSenderLine.seq fun _ => failIf.seq fun _ => addAndStore.seq
        fun _ => .pure True.intro

/-! ## Manage offer -/

theorem manageOffer_doCheckValid {op : ManageOfferOp} :
    Program c m (ManageOfferOpFrame.doCheckValid app op) fun _ => True :=
  failIf.seq fun _ => failIf.seq fun _ => failIf.trivial

theorem loadSheepLine {sourceID : AccountID} {sheep : Asset} :
    Program c (.inside d) (ManageOfferOpFrame.loadSheepLine d sourceID sheep) fun _ => True := by
  refine .ite (fun _ => .pure True.intro) fun _ => loadTrustLineIssuer.seq fun r => ?_
  split
  · exact fail
  · exact fail
  · exact lineBalance.seq fun _ => failIf.seq fun _ => failIf.seq fun _ => .pure True.intro

theorem loadWheatLine {sourceID : AccountID} {wheat : Asset} :
    Program c (.inside d) (ManageOfferOpFrame.loadWheatLine d sourceID wheat) fun _ => True := by
  refine .ite (fun _ => .pure True.intro) fun _ => loadTrustLineIssuer.seq fun r => ?_
  split
  · exact fail
  · exact fail
  · exact failIf.seq fun _ => .pure True.intro

theorem checkOfferValid {sourceID : AccountID} {op : ManageOfferOp} :
    Program c (.inside d) (ManageOfferOpFrame.checkOfferValid d sourceID op) fun _ => True :=
  .ite (fun _ => .pure True.intro) fun _ => loadSheepLine.seq fun _ => loadWheatLine.seq fun _ =>
    .pure True.intro

theorem loadSellSheepOffer {sourceID : AccountID} {mPassive : Bool} {op : ManageOfferOp} :
    Program c (.inside d) (ManageOfferOpFrame.loadSellSheepOffer d sourceID mPassive op)
      fun _ => True := by
  refine .ite (fun _ => ?_) fun _ => .pure True.intro
  refine (load (OfferFrame.wpLoaded_loadOffer d sourceID op.offerID)
    (.loadOffer d sourceID op.offerID)).seq fun o => ?_
  split
  · exact fail
  · exact .pure True.intro

theorem maxWheat {wheat : Asset} {line : Option TrustFrame} :
    Program c m (ManageOfferOpFrame.maxWheat wheat line) fun _ => True :=
  .ite (fun _ => .pure True.intro) fun _ => (deref (R := fun _ => True) fun _ _ => True.intro).seq
    fun _ => failIf.seq fun _ => .pure True.intro

theorem maxSheep {sheep : Asset} {line : Option TrustFrame} :
    Program c m (ManageOfferOpFrame.maxSheep sheep line) fun _ => True :=
  .ite (fun _ => getSource.seq fun _ => getBalanceAboveReserve) fun _ =>
    (deref (R := fun _ => True) fun _ _ => True.intro).seq fun _ => lineBalance

/-- The source is credited in the delta around the scope. -/
theorem adjustSource {asset : Asset} {line : Option TrustFrame} {amount : ℤ} {what : String} :
    Program c (.leaving d) (ManageOfferOpFrame.adjustSource d asset line amount what)
      fun _ => True := by
  refine .ite (fun _ => getSource.bind fun source hsource => (addNative hsource.1
    takes_outer).bind fun _ hs => setSource (hsource.same hs)) fun _ => ?_
  refine (deref (R := fun _ => True) fun _ _ => True.intro).seq fun line => ?_
  split
  · exact .throw _
  · exact (lineStoreChange takes_outer).seq fun _ => .pure True.intro

theorem storeOffer {creatingNewOffer : Bool} {offer : OfferFrame} :
    Program c (.leaving d) (ManageOfferOpFrame.storeOffer (d + 1) creatingNewOffer offer)
      fun _ => True := by
  refine .ite (fun _ => .ite (fun _ => ?_) fun _ => ?_) fun _ => ?_
  · refine getSource.bind fun source hsource => addNumEntries.bind fun o ho => ?_
    split
    · exact fail
    · exact (setSource (hsource.same (ho _ rfl))).seq fun _ => getHeader.seq fun _ =>
        (setHeader _).seq fun _ => offerStoreAdd.seq fun _ =>
          storeSourceAccount.seq fun _ => .pure True.intro
  · exact offerStoreChange.seq fun _ => .pure True.intro
  · refine (runIf fun _ => ?_).seq fun _ => .pure True.intro
    refine offerStoreDelete.seq fun _ => getSource.bind fun source hsource =>
      addNumEntries.bind fun o ho => ?_
    exact (deref (R := c.HoldsSource) fun f hf => hsource.same (ho f hf)).bind fun f hf =>
      (setSource hf).seq fun _ => storeSourceAccount

/-- What comes before the source is credited: the most it can send, and what it gets. -/
def crossing (app : Application) (d : ℕ) (sourceID : AccountID) (op : ManageOfferOp)
    (offer : OfferFrame × Bool) (lines : Option TrustFrame × Option TrustFrame) :
    LedgerM (ℤ × OfferExchange.Conversion) := do
  if op.amount = 0 then return (0, { maxSheepSend := 0, maxWheatReceive := 0 })
  else
    let maxAmountOfSheepCanSell ← ManageOfferOpFrame.maxSheep op.selling lines.1
    let maxWheatCanSell ← ManageOfferOpFrame.maxWheat op.buying lines.2
    let maxSheepBasedOnWheat := (← Transactions.bigDivide maxWheatCanSell offer.1.mOffer.price.d
      offer.1.mOffer.price.n).getD INT64_MAX
    let maxSheepSend := min (min maxAmountOfSheepCanSell maxSheepBasedOnWheat) offer.1.mOffer.amount
    let (r, conv) ← OfferExchange.convertWithOffers app (d + 1) op.selling maxSheepSend op.buying
      maxWheatCanSell (ManageOfferOpFrame.filter sourceID offer.1.mOffer offer.2)
    Transactions.failIf (r = .eFilterStop true)
      (ManageOfferOpFrame.result .MANAGE_OFFER_CROSS_SELF)
    return (maxSheepSend, conv)

/-- Credits the source, and stores what is left of the offer. -/
def settle (d : ℕ) (op : ManageOfferOp) (offer : OfferFrame)
    (lines : Option TrustFrame × Option TrustFrame) (r : ℤ × OfferExchange.Conversion) :
    LedgerM ManageOfferResult := do
  SmartCore.runIf (0 < r.2.wheatReceived) do
    ManageOfferOpFrame.adjustSource d op.buying lines.2 r.2.wheatReceived
      "offer claimed over limit"
    ManageOfferOpFrame.adjustSource d op.selling lines.1 (int64 (-r.2.sheepSend))
      "offer sold more than balance"
  let effect ← ManageOfferOpFrame.storeOffer (d + 1) (op.offerID = 0)
    { offer with mOffer := { offer.mOffer with amount := int64 (r.1 - r.2.sheepSend) } }
  return .MANAGE_OFFER_SUCCESS r.2.mOfferTrail effect

theorem manageOffer_doApply_eq (sourceID : AccountID) (mPassive : Bool) (op : ManageOfferOp) :
    ManageOfferOpFrame.doApply app d sourceID mPassive op = (do
      let lines ← ManageOfferOpFrame.checkOfferValid d sourceID op
      let offer ← ManageOfferOpFrame.loadSellSheepOffer d sourceID mPassive op
      nested d (sqlTransaction
        (crossing app d sourceID op offer lines >>= settle d op offer.1 lines))) := by
  rw [ManageOfferOpFrame.doApply]
  by_cases hamount : op.amount = 0
  · simp only [hamount, if_true, crossing, settle, pure_bind, SmartCore.runIf, lt_irrefl, if_false]
    rfl
  · simp only [hamount, if_false, crossing, settle, ManageOfferOpFrame.exchange, bind_assoc,
      pure_bind]

theorem crossing_program {sourceID : AccountID} {op : ManageOfferOp} {offer : OfferFrame × Bool}
    {lines : Option TrustFrame × Option TrustFrame} :
    Program c (.inside (d + 1)) (crossing app d sourceID op offer lines) fun _ => True :=
  .ite (fun _ => .pure True.intro) fun _ => maxSheep.seq fun _ => maxWheat.seq fun _ =>
    bigDivide.seq fun _ => convertWithOffers.seq fun _ => failIf.seq fun _ => .pure True.intro

theorem settle_program {op : ManageOfferOp} {offer : OfferFrame}
    {lines : Option TrustFrame × Option TrustFrame} {r : ℤ × OfferExchange.Conversion} :
    Program c (.leaving d) (settle d op offer lines r) fun _ => True :=
  (runIf fun _ => adjustSource.seq fun _ => adjustSource).seq fun _ => storeOffer.seq fun _ =>
    .pure True.intro

theorem manageOffer_doApply {sourceID : AccountID} {mPassive : Bool} {op : ManageOfferOp} :
    Program c (.inside d) (ManageOfferOpFrame.doApply app d sourceID mPassive op)
      fun _ => True := by
  rw [manageOffer_doApply_eq]
  exact checkOfferValid.seq fun _ => loadSellSheepOffer.seq fun _ =>
    scope crossing_program fun _ _ => settle_program

/-! ## Set options -/

theorem setOptions_doCheckValid {sourceID : AccountID} {op : SetOptionsOp} :
    Program c m (SetOptionsOpFrame.doCheckValid sourceID op) fun _ => True :=
  failIf.seq fun _ => failIf.seq fun _ => failIf.seq fun _ => failIf.seq fun _ => failIf.seq
    fun _ => failIf.seq fun _ => failIf.seq fun _ => failIf.seq fun _ => failIf.trivial

theorem addSigner {signer : Signer} (hsigners : ∀ signers, c.sourceSigners signers)
    (h : c.signer c.source signer.pubKey signer.signerType) :
    Program c m (SetOptionsOpFrame.addSigner signer) fun _ => True := by
  refine getSource.bind fun source hsource => .ite (fun _ => ?_) fun _ => ?_
  · refine modifySourceAccount fun f hf => ⟨⟨hf.1.1, ?_⟩, hf.2.1, hsigners _⟩
    intro s hs
    obtain ⟨old, hold, rfl⟩ := List.mem_map.mp hs
    -- only a weight changes
    split
    · exact hf.1.2 old hold
    · exact hf.1.2 old hold
  · refine failIf.seq fun _ => addNumEntries.bind fun o ho => ?_
    split
    · exact fail
    · refine (setSource (hsource.same (ho _ rfl))).seq fun _ => modifySourceAccount
        fun f hf => ⟨⟨hf.1.1, ?_⟩, hf.2.1, hsigners _⟩
      intro s hs
      rcases List.mem_append.mp hs with hs | hs
      · exact hf.1.2 s hs
      · rw [List.mem_singleton.mp hs]
        have hid : f.mAccountEntry.accountID = c.source := hf.2.1
        rw [hid]
        exact h

theorem deleteSigner {pubKey : AccountID} {kept signers : List Signer}
    (hsigners : ∀ signers, c.sourceSigners signers)
    (h : ∀ s ∈ kept ++ signers, c.signer c.source s.pubKey s.signerType) :
    Program c m (SetOptionsOpFrame.deleteSigner pubKey kept signers) fun _ => True := by
  induction signers generalizing kept with
  | nil =>
    refine modifySourceAccount fun f hf => ⟨⟨hf.1.1, ?_⟩, hf.2.1, hsigners _⟩
    intro s hs
    have hid : f.mAccountEntry.accountID = c.source := hf.2.1
    rw [hid]
    exact h s (by simpa using hs)
  | cons old signers ih =>
    refine .ite (fun _ => getSource.bind fun source hsource => addNumEntries.bind fun o ho => ?_)
      fun _ => ih (by simpa using h)
    refine (deref (R := c.HoldsSource) fun f hf => hsource.same (ho f hf)).bind fun f hf =>
      (setSource hf).seq fun _ => ih fun s hs => h s ?_
    rcases List.mem_append.mp hs with hs | hs
    · exact List.mem_append_left _ hs
    · exact List.mem_append_right _ (List.mem_cons_of_mem _ hs)

theorem setSigner {signer : Signer} (hsigners : ∀ signers, c.sourceSigners signers)
    (h : c.signer c.source signer.pubKey signer.signerType) :
    Program c m (SetOptionsOpFrame.setSigner signer) fun _ => True := by
  rw [SetOptionsOpFrame.setSigner]
  refine getSource.bind fun source hsource => get.seq fun s => failIf.seq fun _ => ?_
  have hrest : Program c m (do
      let source ← getSourceAccount
      setSourceAccount source.setUpdateSigners) fun _ => True := by
    refine getSource.bind fun f hf => setSource
      ⟨⟨hf.1.1, fun s hs => hf.1.2 s ?_⟩, hf.2.1, hsigners _⟩
    exact (List.perm_insertionSort _ _).mem_iff.mp hs
  refine .ite (fun _ => (addSigner hsigners h).seq fun _ => hrest) fun _ =>
    (deleteSigner hsigners fun s hs => ?_).seq fun _ => hrest
  have hid : source.mAccountEntry.accountID = c.source := hsource.2.1
  rw [← hid]
  exact hsource.1.2 s (by simpa using hs)

end Program

/-- The custody allows the source any thresholds and signers, and the one that is added. -/
structure AdmitsOptions (c : Custody) (op : SetOptionsOp) : Prop where
  thresholds : ∀ accountType old new, c.account c.source accountType old →
    c.account c.source accountType new
  signers : ∀ signers, c.sourceSigners signers
  signer : ∀ signer ∈ op.signer, c.signer c.source signer.pubKey signer.signerType

namespace Program

theorem setOptions_doApply {op : SetOptionsOp} (h : AdmitsOptions c op) :
    Program c (.inside d) (SetOptionsOpFrame.doApply d op) fun _ => True := by
  have hstore : Program c (.inside d) (do
      Transactions.storeSourceAccount d
      return SetOptionsResult.SET_OPTIONS_SUCCESS) fun _ => True :=
    storeSourceAccount.seq fun _ => .pure True.intro
  have hfields : Program c (.inside d)
      (Transactions.modifySourceAccount (SetOptionsOpFrame.setFields op)) fun _ => True := by
    refine modifySourceAccount fun f hf => ⟨⟨?_, hf.1.2⟩, hf.2.1, hf.2.2⟩
    have hid : f.mAccountEntry.accountID = c.source := hf.2.1
    have htype : c.account f.mAccountEntry.accountID f.mAccountEntry.accountType
      f.mAccountEntry.thresholds := hf.1.1
    rw [hid] at htype
    show c.account f.mAccountEntry.accountID _ _
    rw [hid]
    exact h.thresholds _ _ _ htype
  have hrest : Program c (.inside d) (SetOptionsOpFrame.doApply d { op with inflationDest := none })
      fun _ => True := by
    rw [SetOptionsOpFrame.doApply]
    refine getSource.seq fun _ => failIf.seq fun _ =>
      modifySource_seq (fun _ => ⟨rfl, rfl, rfl, rfl⟩) ?_
    refine getSource.seq fun _ => failIf.seq fun _ =>
      modifySource_seq (fun _ => ⟨rfl, rfl, rfl, rfl⟩) ?_
    refine hfields.seq fun _ => ?_
    cases hsigner : op.signer with
    | none => exact hstore
    | some signer => exact (setSigner h.signers (h.signer signer hsigner)).seq fun _ => hstore
  rw [SetOptionsOpFrame.doApply]
  cases op.inflationDest with
  | none => exact hrest
  | some inflationID =>
    exact (loadAccount _).seq fun _ => failIf.seq fun _ =>
      modifySource_seq (fun _ => ⟨rfl, rfl, rfl, rfl⟩) hrest

/-! ## Allow trust, merge, inflation and data -/

theorem allowTrust_doApply {sourceID : AccountID} {op : AllowTrustOp} :
    Program c (.inside d) (AllowTrustOpFrame.doApply d sourceID op) fun _ => True := by
  rw [AllowTrustOpFrame.doApply]
  refine getSource.seq fun _ => failIf.seq fun _ => failIf.seq fun _ => loadTrustLine.seq
    fun o => ?_
  split
  · exact fail
  · exact (lineStoreChange takes_inside).seq fun _ => .pure True.intro

theorem merge_doCheckValid {sourceAccount : Option AccountID} {destination : AccountID} :
    Program c m (MergeOpFrame.doCheckValid app sourceAccount destination) fun _ => True := by
  cases sourceAccount with
  | none => exact fail
  | some sourceAccount => exact failIf.seq fun _ => failIf.trivial

theorem merge_doApply {destination : AccountID} (h : c.Deletable c.source) :
    Program c (.inside d) (MergeOpFrame.doApply d destination) fun _ => True := by
  rw [MergeOpFrame.doApply]
  refine (loadAccount _).bind fun o ho => ?_
  split
  · exact fail
  · refine getSource.bind fun source hsource => failIf.seq fun _ => failIf.seq fun _ =>
      (addNative (ho _ rfl).1 takes_inside).seq fun _ => (storeDelete ?_).seq fun _ =>
        .pure True.intro
    rw [hsource.2.1]
    exact h

theorem dole {amountToDole totalVotes : ℤ} {winners : List InflationOpFrame.InflationVotes}
    {leftAfterDole : ℤ} :
    Program c (.inside d) (InflationOpFrame.dole d amountToDole totalVotes winners leftAfterDole)
      fun _ => True := by
  induction winners generalizing leftAfterDole with
  | nil => exact .pure True.intro
  | cons w winners ih =>
    rw [InflationOpFrame.dole]
    refine bigDivideOrThrow.seq fun _ => .ite (fun _ => ih) fun _ => (loadAccount _).bind
      fun o ho => ?_
    split
    · exact ih
    · exact getHeader.seq fun _ => (setHeader _).seq fun _ =>
        (addNative (ho _ rfl).1 takes_inside).seq fun _ => ih.seq fun _ => .pure True.intro

theorem manageData_doCheckValid {op : ManageDataOp} :
    Program c m (ManageDataOpFrame.doCheckValid op) fun _ => True :=
  get.seq fun _ => failIf.seq fun _ => failIf.trivial

theorem manageData_doApply {op : ManageDataOp} :
    Program c (.inside d) (ManageDataOpFrame.doApply d op) fun _ => True := by
  rw [ManageDataOpFrame.doApply]
  refine getSource.bind fun source hsource => read.seq fun o => ?_
  split
  · refine addNumEntries.bind fun o ho => ?_
    split
    · exact (fail (R := fun _ => True)).seq fun _ => .pure True.intro
    · exact (setSource (hsource.same (ho _ rfl))).seq fun _ =>
        dataStoreAdd.seq fun _ =>
          storeSourceAccount.seq fun _ => .pure True.intro
  · exact dataStoreChange.seq
      fun _ => .pure True.intro
  · exact (fail (R := fun _ => True)).seq fun _ => .pure True.intro
  · refine addNumEntries.bind fun o ho => (deref (R := c.HoldsSource)
      fun f hf => hsource.same (ho f hf)).bind fun f hf => (setSource hf).seq fun _ =>
        storeSourceAccount.seq fun _ => ?_
    exact dataStoreDelete.seq
      fun _ => .pure True.intro

theorem administrative_doCheckValid {sourceID : AccountID} {op : AdministrativeOp} :
    Program c m (AdministrativeOpFrame.doCheckValid app sourceID op) fun _ => True :=
  failIf.seq fun _ => failIf.seq fun _ => get.seq fun _ => failIf.trivial

end Program

/-! ## Inflation does not fail once it has started -/

theorem unfailing_get : Unfailing (get : LedgerM LedgerState) := fun _ => trivial

theorem unfailing_setHeader (d : ℕ) (header : LedgerHeader) : Unfailing (setHeader d header) := by
  intro s
  rw [setHeader, wp_updateDelta]
  exact ⟨fun _ _ => trivial, fun _ r => by simp⟩

theorem unfailing_getHeader (d : ℕ) : Unfailing (getHeader d) :=
  unfailing_get.bind fun _ => .pure _

theorem unfailing_bigDivideOrThrow (A B C : ℤ) : Unfailing (bigDivideOrThrow A B C) := by
  intro s
  simp only [bigDivideOrThrow, bigDivide, assertion, wp_bind, wp_require, wp_pure]
  refine ⟨fun _ => ?_, fun _ r => by simp⟩
  split
  · exact trivial
  · exact fun r => by simp

theorem unfailing_dole (d : ℕ) (amountToDole totalVotes : ℤ)
    (winners : List InflationOpFrame.InflationVotes) (leftAfterDole : ℤ) :
    Unfailing (InflationOpFrame.dole d amountToDole totalVotes winners leftAfterDole) := by
  induction winners generalizing leftAfterDole with
  | nil => exact .pure _
  | cons w winners ih =>
    rw [InflationOpFrame.dole]
    refine (unfailing_bigDivideOrThrow _ _ _).bind fun toDole => ?_
    split
    · exact ih _
    · refine (AccountFrame.wpLoaded_loadAccount d _).unfailing.bind fun o => ?_
      split
      · exact ih _
      · exact (unfailing_getHeader d).bind fun _ => (unfailing_setHeader d _).bind fun _ =>
          (unfailing_of_stored fun _ => AccountFrame.wp_storeChange).bind fun _ =>
            (ih _).bind fun _ => .pure _

namespace Program

theorem inflation_doApply : Program c (.inside d) (InflationOpFrame.doApply app d) fun _ => True := by
  refine guarded (fun header => ?_) fun header => ?_
  · exact bigDivideOrThrow.seq fun _ => get.seq fun _ => bigDivideOrThrow.seq fun _ =>
      (setHeader _).seq fun _ => dole.seq fun _ => getHeader.seq fun _ => (setHeader _).seq
        fun _ => .pure True.intro
  · exact (unfailing_bigDivideOrThrow _ _ _).bind fun _ => unfailing_get.bind fun _ =>
      (unfailing_bigDivideOrThrow _ _ _).bind fun _ => (unfailing_setHeader _ _).bind fun _ =>
        (unfailing_dole _ _ _ _ _).bind fun _ => (unfailing_getHeader _).bind fun _ =>
          (unfailing_setHeader _ _).bind fun _ => .pure _

end Program

/-! ## All operations -/

/-- The custody allows what the operation does. -/
structure Admits (c : Custody) (op : Operation) : Prop where
  anonymous : c.newType .ACCOUNT_ANONYMOUS_USER
  create : ∀ o, op.body = .CREATE_ACCOUNT o → c.newType o.accountType
  merge : ∀ destination, op.body = .ACCOUNT_MERGE destination → c.Deletable c.source
  options : ∀ o, op.body = .SET_OPTIONS o → AdmitsOptions c o
  reversal : ∀ o, op.body = .PAYMENT_REVERSAL o → c.reversible o.paymentID

variable {env : TransactionEnvelope} {op : Operation} {fee : Option OperationFee}

namespace Program

theorem doCheckValid :
    Program c m (OperationFrame.doCheckValid app env op fee) fun _ => True := by
  rw [OperationFrame.doCheckValid]
  cases op.body with
  | CREATE_ACCOUNT op => exact createAccount_doCheckValid
  | PAYMENT op => exact checkPayment
  | PATH_PAYMENT op => exact pathPayment_doCheckValid
  | MANAGE_OFFER op => exact manageOffer_doCheckValid
  | CREATE_PASSIVE_OFFER op => exact manageOffer_doCheckValid
  | SET_OPTIONS op => exact setOptions_doCheckValid
  | CHANGE_TRUST op => exact changeTrust_doCheckValid
  | ALLOW_TRUST op => exact failIf.trivial
  | ACCOUNT_MERGE destination => exact merge_doCheckValid
  | INFLATION => exact .pure True.intro
  | MANAGE_DATA op => exact manageData_doCheckValid
  | ADMINISTRATIVE op => exact administrative_doCheckValid
  | PAYMENT_REVERSAL op => exact paymentReversal_doCheckValid
  | EXTERNAL_PAYMENT op => exact checkPayment

/-- **Every operation is a program.** -/
theorem doApply (h : Admits c op) :
    Program c (.inside d) (OperationFrame.doApply app env d op fee) fun _ => True := by
  have hpay : ∀ {sourceID destination : AccountID} {asset : Asset} {amount : ℤ}
      {translate : PathPaymentResult → Option OperationResultTr}, Program c (.inside d)
        (Transactions.payAsset app d sourceID fee false destination asset amount translate)
        fun _ => True := payAsset h.anonymous
  rw [OperationFrame.doApply]
  cases hbody : op.body with
  | CREATE_ACCOUNT o =>
    exact (createAccount_doApply h.anonymous (h.create o hbody)).seq fun _ => .pure True.intro
  | PAYMENT o =>
    exact ((runIf fun _ => hpay).seq fun _ => Program.pure (R := fun _ => True) True.intro).seq
      fun _ => .pure True.intro
  | PATH_PAYMENT o => exact (pathPayment_doApply h.anonymous).seq fun _ => .pure True.intro
  | MANAGE_OFFER o => exact manageOffer_doApply.seq fun _ => .pure True.intro
  | CREATE_PASSIVE_OFFER o => exact manageOffer_doApply.seq fun _ => .pure True.intro
  | SET_OPTIONS o => exact (setOptions_doApply (h.options o hbody)).seq fun _ => .pure True.intro
  | CHANGE_TRUST o =>
    exact getSource.bind fun source hsource => (changeTrust_doApply hsource.1).bind fun r hr =>
      (setSource (hsource.same hr)).seq fun _ => .pure True.intro
  | ALLOW_TRUST o => exact allowTrust_doApply.seq fun _ => .pure True.intro
  | ACCOUNT_MERGE destination =>
    exact (merge_doApply (h.merge destination hbody)).seq fun _ => .pure True.intro
  | INFLATION => exact inflation_doApply.seq fun _ => .pure True.intro
  | MANAGE_DATA o => exact manageData_doApply.seq fun _ => .pure True.intro
  | ADMINISTRATIVE o => exact .pure True.intro
  | PAYMENT_REVERSAL o =>
    exact (paymentReversal_doApply (h.reversal o hbody)).seq fun _ => .pure True.intro
  | EXTERNAL_PAYMENT o =>
    exact (hpay.seq fun _ => Program.pure (R := fun _ => True) True.intro).seq
      fun _ => .pure True.intro

end Program

end SmartCore.Transactions
