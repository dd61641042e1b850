import SmartCore.Transactions.TransactionFrame

/-!
# What the signatures cover

A signature is over the hash of `tx`. The fees of the operations are next to it in the envelope,
so whoever passes a transaction on can change them and the signatures stay valid.

**Theorem (`applyTransaction_eq_of_sameCharge`).** Of two envelopes with the same transaction and
signatures, both valid, applying one or the other is the same, if their fees charge the same for
each payment and are the same for each scratch card. The fee of an operation that does not pay
changes nothing.

The two runs are compared as programs. A fee is read in two places, where it is checked and where
the commission is taken from it, and nothing else of the envelope is outside of `tx` but the
signatures.
-/

namespace SmartCore.Transactions

open SmartCore.Ledger

variable (app : Application)

/-! ## Fees that were checked -/

/-- The fee passes the check against what is paid, whatever the check would answer with. -/
def FeePasses (fee : OperationFee) (asset : Asset) (amount : ℤ) : Prop :=
  ∀ malformed, PathPaymentOpFrame.checkFee fee asset amount malformed = pure ()

/-- The fee of a payment passes the check against the payment. -/
def FeeChecked (fee : Option OperationFee) : OperationBody → Prop
  | .PAYMENT op => ∃ f, fee = some f ∧ FeePasses f op.asset op.amount
  | .PATH_PAYMENT op => ∃ f, fee = some f ∧ FeePasses f op.destAsset op.destAmount
  | .EXTERNAL_PAYMENT op => ∃ f, fee = some f ∧ FeePasses f op.asset op.amount
  | _ => True

section Checks

variable {env : TransactionEnvelope} {s : LedgerState}

theorem wp_checkFee (fee : OperationFee) (asset : Asset) (amount : ℤ) (r : OperationResultTr) :
    wp (PathPaymentOpFrame.checkFee fee asset amount r) (fun _ _ => FeePasses fee asset amount)
      (fun _ _ => True) s := by
  cases fee with
  | opFEE_NONE =>
    simp only [PathPaymentOpFrame.checkFee, wp_failIf]
    exact ⟨fun _ => trivial, fun hamount _ => failIf_of_not hamount _⟩
  | opFEE_CHARGED feeAsset amountToCharge =>
    simp only [PathPaymentOpFrame.checkFee, wp_bind, wp_failIf]
    refine ⟨fun _ => trivial, fun hasset => ⟨fun _ => trivial, fun hcharge => ⟨fun _ => trivial,
      fun hamount malformed => ?_⟩⟩⟩
    simp only [PathPaymentOpFrame.checkFee, failIf_of_not hasset, failIf_of_not hcharge,
      failIf_of_not hamount, pure_bind]

theorem wp_checkPayment (fee : Option OperationFee) (asset : Asset) (amount : ℤ) :
    wp (PaymentOpFrame.checkPayment app fee asset amount)
      (fun _ _ => ∃ f, fee = some f ∧ FeePasses f asset amount) (fun _ _ => True) s := by
  simp only [PaymentOpFrame.checkPayment, wp_bind, wp_deref]
  refine ⟨fun f hf => ?_, fun _ => trivial⟩
  refine wp_mono (wp_checkFee f asset amount _) (fun _ s' hpasses => ?_) fun _ _ h => h
  rw [wp_failIf]
  exact ⟨fun _ => trivial, fun _ => ⟨f, hf, hpasses⟩⟩

/-- An operation that is valid has a fee that is. -/
theorem wp_doCheckValid (op : Operation) (fee : Option OperationFee) :
    wp (OperationFrame.doCheckValid app env op fee) (fun _ _ => FeeChecked fee op.body)
      (fun _ _ => True) s := by
  unfold OperationFrame.doCheckValid
  cases op.body with
  | PAYMENT op => exact wp_checkPayment app fee op.asset op.amount
  | EXTERNAL_PAYMENT op => exact wp_checkPayment app fee op.asset op.amount
  | PATH_PAYMENT op =>
    simp only [PathPaymentOpFrame.doCheckValid, wp_bind, wp_deref]
    refine ⟨fun f hf => ?_, fun _ => trivial⟩
    refine wp_mono (wp_checkFee f op.destAsset op.destAmount _) (fun _ s' hpasses => ?_)
      fun _ _ h => h
    simp only [wp_failIf]
    exact ⟨fun _ => trivial, fun _ => ⟨fun _ => trivial, fun _ => ⟨fun _ => trivial,
      fun _ => ⟨f, hf, hpasses⟩⟩⟩⟩
  | _ => exact wp_trivial _

theorem wp_checkValid (op : Operation) (fee : Option OperationFee) :
    wp (OperationFrame.checkValid app env none op fee) (fun _ _ => FeeChecked fee op.body)
      (fun _ _ => True) s := by
  simp only [OperationFrame.checkValid, wp_bind]
  refine wp_mono (wp_trivial _) (fun source s₁ _ => ?_) fun _ _ h => h
  refine wp_mono (wp_trivial _) (fun _ s₂ _ => ?_) fun _ _ h => h
  refine wp_mono (wp_trivial _) (fun _ s₃ _ => ?_) fun _ _ h => h
  exact wp_doCheckValid app op fee

theorem wp_checkOperations (ops : List (Operation × Option OperationFee)) :
    wp (ops.forM fun op => OperationFrame.checkValid app env none op.1 op.2)
      (fun _ _ => ∀ op ∈ ops, FeeChecked op.2 op.1.body) (fun _ _ => True) s := by
  induction ops generalizing s with
  | nil => simp
  | cons op ops ih =>
    have hcons : (op :: ops).forM (fun op => OperationFrame.checkValid app env none op.1 op.2) =
        OperationFrame.checkValid app env none op.1 op.2 >>= fun _ =>
          ops.forM fun op => OperationFrame.checkValid app env none op.1 op.2 := rfl
    rw [hcons, wp_bind]
    refine wp_mono (wp_checkValid app op.1 op.2) (fun _ s₁ hop => ?_) fun _ _ h => h
    refine wp_mono ih (fun _ s₂ hops => ?_) fun _ _ h => h
    exact List.forall_mem_cons.mpr ⟨hop, hops⟩

/-- A valid envelope has one fee for each operation, and those of payments were checked. -/
theorem wp_commonValid (delta : Option ℕ) (current : ℕ) :
    wp (TransactionFrame.commonValid app env delta current)
      (fun _ _ => env.tx.operations.length = env.operationFees.length) (fun _ _ => True) s := by
  have hfail : ∀ (c : Prop) [Decidable c] (r : TransactionResult) (Q : Unit → LedgerState → Prop)
      (t : LedgerState), wp (TransactionFrame.failTx c r) Q (fun _ _ => True) t ↔
        (¬ c → Q () t) := by
    intro c _ r Q t
    unfold TransactionFrame.failTx
    rw [wp_ite, wp_throw, wp_pure]
    exact ⟨fun h => h.2, fun h => ⟨fun _ => trivial, h⟩⟩
  simp only [TransactionFrame.commonValid, wp_bind, wp_get, hfail]
  intro _ hlen _ _ _
  refine wp_mono (wp_trivial _) (fun account s₁ _ => ?_) fun _ _ h => h
  cases account with
  | none => trivial
  | some account =>
    simp only [wp_bind, hfail]
    intro _
    refine wp_mono (wp_trivial _) (fun r s₂ _ _ => ?_) fun _ _ h => h
    refine wp_mono (wp_trivial _) (fun minBalance s₃ _ _ => ?_) fun _ _ h => h
    exact not_not.mp hlen

theorem feeChecked_of_checkValid {current : ℕ} {s' : LedgerState}
    (h : TransactionFrame.checkValid app env current s = .ok true s') :
    env.tx.operations.length = env.operationFees.length ∧
      ∀ op ∈ TransactionFrame.mOperations env, FeeChecked op.2 op.1.body := by
  have hvalid : wp (TransactionFrame.checkValid app env current)
      (fun valid _ => valid = true → env.tx.operations.length = env.operationFees.length ∧
        ∀ op ∈ TransactionFrame.mOperations env, FeeChecked op.2 op.1.body)
      (fun _ _ => True) s := by
    unfold TransactionFrame.checkValid
    rw [wp_tryCatch]
    simp only [wp_bind]
    refine wp_mono (wp_trivial _) (fun _ s₁ _ => ?_) fun e t _ => by cases e <;> simp
    refine wp_mono (wp_commonValid app none current) (fun _ s₂ hlen => ?_) fun e t _ => by cases e <;> simp
    refine wp_mono (wp_checkOperations app _) (fun _ s₃ hops => ?_) fun e t _ => by cases e <;> simp
    refine wp_mono (wp_trivial _) (fun _ s₄ _ _ => ⟨hlen, hops⟩) fun e t _ => by cases e <;> simp
  unfold wp at hvalid
  rw [h] at hvalid
  exact hvalid rfl

end Checks

/-! ## Fees that charge the same -/

/-- The fees charge the same for a payment, and are the same for a scratch card. -/
def SameCharge (fee fee' : OperationFee) : OperationBody → Prop
  | .PAYMENT _ | .PATH_PAYMENT _ | .EXTERNAL_PAYMENT _ =>
    PathPaymentOpFrame.commission fee = PathPaymentOpFrame.commission fee'
  | .CREATE_ACCOUNT op => op.accountType = .ACCOUNT_SCRATCH_CARD → fee = fee'
  | _ => True

section SameCharge

variable {fee fee' : OperationFee} {d : ℕ} {sourceID : AccountID}

/-- A path payment reads the commission and nothing else of its fee. -/
theorem pathPayment_eq (h : PathPaymentOpFrame.commission fee = PathPaymentOpFrame.commission fee')
    (isCreate : Bool) (op : PathPaymentOp) :
    PathPaymentOpFrame.doApply app d sourceID (some fee) isCreate op =
      PathPaymentOpFrame.doApply app d sourceID (some fee') isCreate op := by
  simp only [PathPaymentOpFrame.doApply, deref, pure_bind, h]

theorem pathPayment_checkValid_eq {op : PathPaymentOp}
    (hfee : FeePasses fee op.destAsset op.destAmount)
    (hfee' : FeePasses fee' op.destAsset op.destAmount) :
    PathPaymentOpFrame.doCheckValid app (some fee) op =
      PathPaymentOpFrame.doCheckValid app (some fee') op := by
  simp only [PathPaymentOpFrame.doCheckValid, deref, pure_bind, hfee _, hfee' _]

theorem payAsset_eq {asset : Asset} {amount : ℤ}
    (h : PathPaymentOpFrame.commission fee = PathPaymentOpFrame.commission fee')
    (hfee : FeePasses fee asset amount) (hfee' : FeePasses fee' asset amount) (isCreate : Bool)
    (destination : AccountID) (translate : PathPaymentResult → Option OperationResultTr) :
    payAsset app d sourceID (some fee) isCreate destination asset amount translate =
      payAsset app d sourceID (some fee') isCreate destination asset amount translate := by
  have hcheck : PathPaymentOpFrame.doCheckValid app (some fee)
      ⟨asset, amount, destination, asset, amount, []⟩ =
        PathPaymentOpFrame.doCheckValid app (some fee')
          ⟨asset, amount, destination, asset, amount, []⟩ :=
    pathPayment_checkValid_eq app hfee hfee'
  simp only [payAsset, hcheck, pathPayment_eq app h]

variable (env : TransactionEnvelope) {op : Operation}

/-- The fees answer the same where the operation is checked. -/
theorem doCheckValid_eq (hfee : FeeChecked (some fee) op.body)
    (hfee' : FeeChecked (some fee') op.body) :
    OperationFrame.doCheckValid app env op (some fee) =
      OperationFrame.doCheckValid app env op (some fee') := by
  unfold OperationFrame.doCheckValid
  cases hbody : op.body with
  | PAYMENT op =>
    rw [hbody] at hfee hfee'
    obtain ⟨_, ⟨⟩, hpasses⟩ := hfee
    obtain ⟨_, ⟨⟩, hpasses'⟩ := hfee'
    simp only [PaymentOpFrame.doCheckValid, PaymentOpFrame.checkPayment, deref, pure_bind,
      hpasses _, hpasses' _]
  | EXTERNAL_PAYMENT op =>
    rw [hbody] at hfee hfee'
    obtain ⟨_, ⟨⟩, hpasses⟩ := hfee
    obtain ⟨_, ⟨⟩, hpasses'⟩ := hfee'
    simp only [PaymentExternalOpFrame.doCheckValid, PaymentOpFrame.checkPayment, deref, pure_bind,
      hpasses _, hpasses' _]
  | PATH_PAYMENT op =>
    rw [hbody] at hfee hfee'
    obtain ⟨_, ⟨⟩, hpasses⟩ := hfee
    obtain ⟨_, ⟨⟩, hpasses'⟩ := hfee'
    exact pathPayment_checkValid_eq app hpasses hpasses'
  | _ => rfl

/-- They do the same where the operation is applied. -/
theorem doApply_eq (h : SameCharge fee fee' op.body) (hfee : FeeChecked (some fee) op.body)
    (hfee' : FeeChecked (some fee') op.body) :
    OperationFrame.doApply app env d op (some fee) =
      OperationFrame.doApply app env d op (some fee') := by
  unfold OperationFrame.doApply
  cases hbody : op.body with
  | CREATE_ACCOUNT op =>
    rw [hbody] at h
    by_cases hcard : op.accountType = .ACCOUNT_SCRATCH_CARD
    · rw [h hcard]
    · simp only [CreateAccountOpFrame.doApply, runIf, if_neg hcard]
  | PAYMENT op =>
    rw [hbody] at h hfee hfee'
    obtain ⟨_, ⟨⟩, hpasses⟩ := hfee
    obtain ⟨_, ⟨⟩, hpasses'⟩ := hfee'
    simp only [PaymentOpFrame.doApply, payAsset_eq app h hpasses hpasses']
  | EXTERNAL_PAYMENT op =>
    rw [hbody] at h hfee hfee'
    obtain ⟨_, ⟨⟩, hpasses⟩ := hfee
    obtain ⟨_, ⟨⟩, hpasses'⟩ := hfee'
    simp only [PaymentExternalOpFrame.doApply, payAsset_eq app h hpasses hpasses']
  | PATH_PAYMENT op =>
    rw [hbody] at h
    simp only [pathPayment_eq app h]
  | _ => rfl

end SameCharge

/-! ## The two runs -/

section Runs

variable {tx : Transaction} {signatures : List DecoratedSignature}
  {fees fees' : List OperationFee} {d : ℕ}

/-- Signatures are of the transaction. -/
theorem checkSignatureLoop_eq (neededWeight : ℤ) (sigs : List DecoratedSignature) (i : ℕ)
    (keyWeights : List Signer) (totalWeight : ℤ) :
    TransactionFrame.checkSignatureLoop app ⟨tx, signatures, fees⟩ neededWeight sigs i keyWeights
        totalWeight =
      TransactionFrame.checkSignatureLoop app ⟨tx, signatures, fees'⟩ neededWeight sigs i keyWeights
        totalWeight := by
  have hsigns : TransactionFrame.signs app ⟨tx, signatures, fees⟩ =
      TransactionFrame.signs app ⟨tx, signatures, fees'⟩ := rfl
  induction sigs generalizing i keyWeights totalWeight with
  | nil => rfl
  | cons sig sigs ih => simp only [TransactionFrame.checkSignatureLoop, hsigns, ih]

theorem checkSignature_eq :
    TransactionFrame.checkSignature app ⟨tx, signatures, fees⟩ =
      TransactionFrame.checkSignature app ⟨tx, signatures, fees'⟩ := by
  funext account neededWeight
  unfold TransactionFrame.checkSignature
  rw [@checkSignatureLoop_eq app tx signatures fees fees']
  rfl

/-- Nothing else of the envelope is read by an operation. -/
theorem apply_operation_eq {op : Operation} {fee fee' : OperationFee}
    (h : SameCharge fee fee' op.body) (hfee : FeeChecked (some fee) op.body)
    (hfee' : FeeChecked (some fee') op.body) :
    OperationFrame.apply app ⟨tx, signatures, fees⟩ d op (some fee) =
      OperationFrame.apply app ⟨tx, signatures, fees'⟩ d op (some fee') := by
  have hsource : OperationFrame.checkSource app ⟨tx, signatures, fees⟩ =
      OperationFrame.checkSource app ⟨tx, signatures, fees'⟩ := by
    funext source op
    unfold OperationFrame.checkSource
    rw [checkSignature_eq app]
    rfl
  have hcheck : OperationFrame.doCheckValid app ⟨tx, signatures, fees⟩ op (some fee) =
      OperationFrame.doCheckValid app ⟨tx, signatures, fees'⟩ op (some fee') :=
    doCheckValid_eq app _ hfee hfee'
  have hdo : OperationFrame.doApply app ⟨tx, signatures, fees⟩ d op (some fee) =
      OperationFrame.doApply app ⟨tx, signatures, fees'⟩ d op (some fee') :=
    doApply_eq app _ h hfee hfee'
  unfold OperationFrame.apply OperationFrame.checkValid
  rw [hsource, hcheck, hdo]
  rfl

/-- The operations of two envelopes with fees that charge the same. -/
theorem applyOperations_eq {ops ops' : List (Operation × Option OperationFee)}
    (h : List.Forall₂ (fun op op' => op.1 = op'.1 ∧ ∃ fee fee', op.2 = some fee ∧
      op'.2 = some fee' ∧ SameCharge fee fee' op.1.body ∧ FeeChecked (some fee) op.1.body ∧
        FeeChecked (some fee') op.1.body) ops ops') :
    TransactionFrame.applyOperations app ⟨tx, signatures, fees⟩ d ops =
      TransactionFrame.applyOperations app ⟨tx, signatures, fees'⟩ d ops' := by
  induction h with
  | nil => rfl
  | @cons op op' ops ops' hop _ ih =>
    obtain ⟨op, _⟩ := op
    obtain ⟨op', _⟩ := op'
    obtain ⟨rfl, fee, fee', rfl, rfl, hcharge, hfee, hfee'⟩ := hop
    have hop : OperationFrame.apply app ⟨tx, signatures, fees⟩ (d + 1) op (some fee) =
        OperationFrame.apply app ⟨tx, signatures, fees'⟩ (d + 1) op (some fee') :=
      apply_operation_eq app hcharge hfee hfee'
    simp only [TransactionFrame.applyOperations, ih, hop]

/-- The operations of two valid envelopes, paired with their fees. -/
theorem mOperations_forall₂ (hlen : tx.operations.length = fees.length)
    (hlen' : tx.operations.length = fees'.length)
    (h : ∀ op ∈ TransactionFrame.mOperations ⟨tx, signatures, fees⟩, FeeChecked op.2 op.1.body)
    (h' : ∀ op ∈ TransactionFrame.mOperations ⟨tx, signatures, fees'⟩, FeeChecked op.2 op.1.body)
    (hcharge : ∀ (i : ℕ) (op : Operation) (fee fee' : OperationFee), tx.operations[i]? = some op →
      fees[i]? = some fee → fees'[i]? = some fee' → SameCharge fee fee' op.body) :
    List.Forall₂ (fun op op' => op.1 = op'.1 ∧ ∃ fee fee', op.2 = some fee ∧
      op'.2 = some fee' ∧ SameCharge fee fee' op.1.body ∧ FeeChecked (some fee) op.1.body ∧
        FeeChecked (some fee') op.1.body)
      (TransactionFrame.mOperations ⟨tx, signatures, fees⟩)
      (TransactionFrame.mOperations ⟨tx, signatures, fees'⟩) := by
  unfold TransactionFrame.mOperations at h h' ⊢
  rw [List.forall₂_map_left_iff, List.forall₂_map_right_iff, List.forall₂_same]
  intro ⟨op, i⟩ hop
  have hget : tx.operations[i]? = some op := List.mem_zipIdx_iff_getElem?.mp hop
  obtain ⟨hi, -⟩ := List.getElem?_eq_some_iff.mp hget
  have hfee : fees[i]? = some fees[i] := List.getElem?_eq_getElem (hlen ▸ hi)
  have hfee' : fees'[i]? = some fees'[i] := List.getElem?_eq_getElem (hlen' ▸ hi)
  have hchecked := h _ (List.mem_map_of_mem hop)
  have hchecked' := h' _ (List.mem_map_of_mem hop)
  rw [hfee] at hchecked
  rw [hfee'] at hchecked'
  exact ⟨rfl, _, _, hfee, hfee', hcharge i op _ _ hget hfee hfee', hchecked, hchecked'⟩

/-- **The signatures cover all but the charges.** Two envelopes with the same transaction and the
same signatures, both accepted, take the same fee and sequence number and are applied the same,
from every state, if their fees charge the same for each payment and are the same for each scratch
card. -/
theorem applyTransaction_eq_of_sameCharge (tx : Transaction) (signatures : List DecoratedSignature)
    (fees fees' : List OperationFee) (current current' : ℕ) (t u t' u' : LedgerState)
    (hvalid : TransactionFrame.checkValid app ⟨tx, signatures, fees⟩ current t = .ok true u)
    (hvalid' : TransactionFrame.checkValid app ⟨tx, signatures, fees'⟩ current' t' = .ok true u')
    (hcharge : ∀ (i : ℕ) (op : Operation) (fee fee' : OperationFee), tx.operations[i]? = some op →
      fees[i]? = some fee → fees'[i]? = some fee' → SameCharge fee fee' op.body)
    (s : LedgerState) :
    TransactionFrame.processFeeSeqNum ⟨tx, signatures, fees⟩ 1 s =
        TransactionFrame.processFeeSeqNum ⟨tx, signatures, fees'⟩ 1 s ∧
      LedgerManager.applyTransaction app ⟨tx, signatures, fees⟩ s =
        LedgerManager.applyTransaction app ⟨tx, signatures, fees'⟩ s := by
  obtain ⟨hlen, hfees⟩ := feeChecked_of_checkValid app hvalid
  obtain ⟨hlen', hfees'⟩ := feeChecked_of_checkValid app hvalid'
  have hops : ∀ d, TransactionFrame.applyOperations app ⟨tx, signatures, fees⟩ d
      (TransactionFrame.mOperations ⟨tx, signatures, fees⟩) =
        TransactionFrame.applyOperations app ⟨tx, signatures, fees'⟩ d
          (TransactionFrame.mOperations ⟨tx, signatures, fees'⟩) := fun d =>
    applyOperations_eq app (mOperations_forall₂ hlen hlen' hfees hfees' hcharge)
  have hcommon : TransactionFrame.commonValid app ⟨tx, signatures, fees⟩ =
      TransactionFrame.commonValid app ⟨tx, signatures, fees'⟩ := by
    funext delta current
    unfold TransactionFrame.commonValid
    have hcount : fees.length = fees'.length := hlen.symm.trans hlen'
    rw [hcount, checkSignature_eq app]
    rfl
  have happly : ∀ d, TransactionFrame.apply app ⟨tx, signatures, fees⟩ d =
      TransactionFrame.apply app ⟨tx, signatures, fees'⟩ d := by
    intro d
    unfold TransactionFrame.apply TransactionFrame.applyAll
    rw [hcommon, hops]
    rfl
  refine ⟨rfl, ?_⟩
  unfold LedgerManager.applyTransaction LedgerManager.applyInDelta
  rw [happly]

end Runs

open LedgerManager

/-- The account 5 pays 50 to the bank, with a fee of its choice. -/
def payWithFee (fee : OperationFee) : TransactionEnvelope :=
  signedBy 5 5 1 [⟨none, .PAYMENT ⟨1, usd, 50⟩⟩] [fee]

theorem applyTransaction_eq_payWithFee :
    ∃ s u u', runLedgers exampleBank [issue] {} = .ok () s ∧
      TransactionFrame.checkValid exampleBank (payWithFee .opFEE_NONE) 0 s = .ok true u ∧
      TransactionFrame.checkValid exampleBank (payWithFee (.opFEE_CHARGED usd 0)) 0 s =
        .ok true u' ∧
      applyTransaction exampleBank (payWithFee .opFEE_NONE) s =
        applyTransaction exampleBank (payWithFee (.opFEE_CHARGED usd 0)) s := by
  have hvalid : returns (runLedgers exampleBank [issue]) (fun _ s =>
      returns (TransactionFrame.checkValid exampleBank (payWithFee .opFEE_NONE) 0)
        (fun valid _ => valid) s &&
      returns (TransactionFrame.checkValid exampleBank (payWithFee (.opFEE_CHARGED usd 0)) 0)
        (fun valid _ => valid) s) {} = true := by
    decide +kernel
  obtain ⟨_, s, hs, hvalid⟩ := exists_of_returns hvalid
  obtain ⟨hvalid, hvalid'⟩ := (Bool.and_eq_true _ _).mp hvalid
  obtain ⟨_, u, hu, rfl⟩ := exists_of_returns hvalid
  obtain ⟨_, u', hu', rfl⟩ := exists_of_returns hvalid'
  refine ⟨s, u, u', hs, hu, hu', (applyTransaction_eq_of_sameCharge exampleBank _ _ _ _ 0 0 s u s u'
    hu hu' (fun i op fee fee' hop hfee hfee' => ?_) s).2⟩
  match i with
  | 0 =>
    cases hop
    cases hfee
    cases hfee'
    rfl
  | i + 1 => cases hop

/-- The same payment, with the same signature, and two fees: both are accepted, and the bank gets
50 with the one and 40 with the other. -/
theorem fee_changes_balances :
    ∃ s u u' t t', runLedgers exampleBank [issue] {} = .ok () s ∧
      TransactionFrame.checkValid exampleBank (payWithFee .opFEE_NONE) 0 s = .ok true u ∧
      TransactionFrame.checkValid exampleBank (payWithFee (.opFEE_CHARGED usd 10)) 0 s =
        .ok true u' ∧
      applyTransaction exampleBank (payWithFee .opFEE_NONE) s = .ok () t ∧
      applyTransaction exampleBank (payWithFee (.opFEE_CHARGED usd 10)) s = .ok () t' ∧
      lineBalance t 1 usd = some (-50) ∧ lineBalance t' 1 usd = some (-60) := by
  have hvalid : returns (runLedgers exampleBank [issue]) (fun _ s =>
      (returns (TransactionFrame.checkValid exampleBank (payWithFee .opFEE_NONE) 0)
        (fun valid _ => valid) s &&
      returns (TransactionFrame.checkValid exampleBank (payWithFee (.opFEE_CHARGED usd 10)) 0)
        (fun valid _ => valid) s) &&
      (returns (applyTransaction exampleBank (payWithFee .opFEE_NONE))
        (fun _ t => lineBalance t 1 usd == some (-50)) s &&
      returns (applyTransaction exampleBank (payWithFee (.opFEE_CHARGED usd 10)))
        (fun _ t => lineBalance t 1 usd == some (-60)) s)) {} = true := by
    decide +kernel
  obtain ⟨_, s, hs, hvalid⟩ := exists_of_returns hvalid
  simp only [Bool.and_eq_true] at hvalid
  obtain ⟨⟨hvalid, hvalid'⟩, happly, happly'⟩ := hvalid
  obtain ⟨_, u, hu, rfl⟩ := exists_of_returns hvalid
  obtain ⟨_, u', hu', rfl⟩ := exists_of_returns hvalid'
  obtain ⟨_, t, ht, hbalance⟩ := exists_of_returns happly
  obtain ⟨_, t', ht', hbalance'⟩ := exists_of_returns happly'
  exact ⟨s, u, u', t, t', hs, hu, hu', ht, ht', by simpa using hbalance, by simpa using hbalance'⟩

end SmartCore.Transactions
