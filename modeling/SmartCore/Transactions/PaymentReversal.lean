import SmartCore.Transactions.Commission
import SmartCore.Transactions.Reversals

/-!
# What a reversal moves

A reversal takes the commission back from the commission account, the rest from its source, and
gives the whole amount to the account that the payment came from. Each of the three lines is loaded,
changed by `addBalance` and stored before the next one is loaded.

**Theorem (`wp_apply_settled`).** If the three accounts are distinct, then a reversal that succeeds
changes exactly these three lines, by these amounts, if and only if each sum fits into 64 bits.
-/

namespace SmartCore.Transactions

open SmartCore.Ledger OfferExchange OperationFrame TransactionFrame

variable {app : Application} {env : TransactionEnvelope} {op : Operation}
  {fee : Option OperationFee} {s t u : LedgerState} {d : ℕ} {id : AccountID} {asset : Asset}

/-! ## One line -/

/-- An amount is added to one line, in 64 bits, and the others keep theirs. -/
structure Moved (s t : LedgerState) (id : AccountID) (asset : Asset) (amount : ℤ) : Prop where
  readable : Readable t
  line : holding t.db id asset =
    if amount = 0 then holding s.db id asset else int64 (holding s.db id asset + amount)
  others : ∀ id' asset', asset' ≠ .native → ¬ (id' = id ∧ asset' = asset) →
    holding t.db id' asset' = holding s.db id' asset'

/-- Nothing is added, or the sum is a 64-bit number. -/
def SumFits (s : LedgerState) (id : AccountID) (asset : Asset) (amount : ℤ) : Prop :=
  amount ≠ 0 → InRange (holding s.db id asset + amount)

/-- **The amount has been added** exactly if the sum fits. -/
theorem Moved.exact_iff {amount : ℤ} (h : Moved s t id asset amount) :
    holding t.db id asset = holding s.db id asset + amount ↔ SumFits s id asset amount := by
  rw [h.line, SumFits]
  by_cases hzero : amount = 0
  · simp [hzero]
  · rw [if_neg hzero, int64_eq_iff]
    exact ⟨fun h _ => h, fun h => h hzero⟩

/-- What comes before leaves the lines as they are. -/
theorem SameLines.moved {amount : ℤ} (h : SameLines s t) (hmoved : Moved t u id asset amount)
    (hne : asset ≠ .native) : Moved s u id asset amount := by
  refine ⟨hmoved.readable, ?_, fun id' asset' hne' hnot => ?_⟩
  · rw [hmoved.line, h.holding hne]
  · rw [hmoved.others id' asset' hne' hnot, h.holding hne']

namespace PaymentReversalOpFrame

theorem wp_addAndStore_moved {f : TrustFrame} {amount : ℤ} {r : PaymentReversalResult}
    (hne : asset ≠ .native) (h : Readable s) (hf : ShowsLine f s id asset) :
    wp (addAndStore d f amount r) (fun _ t => Moved s t id asset amount) (fun _ _ => True) s := by
  have hbalance := hf.holding_eq hne
  unfold addAndStore
  cases hadd : f.addBalance amount with
  | none => trivial
  | some g =>
    obtain ⟨hid, hasset⟩ := key_of_addBalance hadd
    have hg : g.mTrustLine.balance =
        if amount = 0 then holding s.db id asset else int64 (holding s.db id asset + amount) := by
      split_ifs with hzero
      · rw [TrustFrame.addBalance, if_pos hzero] at hadd
        rw [← Option.some.inj hadd, hbalance]
      · obtain ⟨-, rfl⟩ := (TrustFrame.addBalance_eq_some_iff hzero).mp hadd
        rw [← hbalance]
    simp only [wp_bind, wp_pure]
    refine wp_mono (wp_storeChange_balance (hid.trans hf.ofAccount) (hasset.trans hf.inAsset))
      (fun _ t ht => ?_) fun _ _ h => h
    obtain ⟨hcoherent, haccounts, -, row, row', hrow, ⟨hput, hother⟩, hid', hasset', hstored⟩ := ht
    have hkey : ∀ id' asset', ¬ (id' = id ∧ asset' = asset) →
        LedgerKey.trustLine id' asset' ≠ .trustLine id asset := by
      intro id' asset' hnot hk
      injection hk with h₁ h₂
      exact hnot ⟨h₁, h₂⟩
    refine ⟨⟨hcoherent h.coherent, ?_, fun id₁ asset₁ row₁ hrow₁ => ?_⟩, ?_,
      fun id₁ asset₁ hne₁ hnot => ?_⟩
    · unfold KeyedAccounts
      rw [haccounts]
      exact h.keyedAccounts
    · by_cases hsame : id₁ = id ∧ asset₁ = asset
      · obtain ⟨rfl, rfl⟩ := hsame
        rw [hput] at hrow₁
        rw [← Option.some.inj hrow₁, hid', hasset']
        exact h.keyedLines id₁ asset₁ row hrow
      · rw [hother _ (hkey id₁ asset₁ hsame)] at hrow₁
        exact h.keyedLines id₁ asset₁ row₁ hrow₁
    · rw [holding, if_neg hne, hput, Option.elim_some, hstored, hg]
    · rw [holding, holding, if_neg hne₁, if_neg hne₁, hother _ (hkey id₁ asset₁ hnot)]

/-! ## The three lines -/

theorem wp_checkAlreadyReversed_sameLines {op : PaymentReversalOp} :
    wp (checkAlreadyReversed d op) (fun _ t => SameLines s t) (fun _ _ => True) s := by
  have hrows : wp (ReversedPaymentFrame.storeAdd d op.paymentID)
      (fun _ t => t.db.accounts = s.db.accounts ∧ t.db.trustlines = s.db.trustlines)
      (fun _ _ => True) s := by
    simp only [ReversedPaymentFrame.storeAdd, touch, assertion, wp_bind, wp_get, wp_pure,
      wp_require]
    refine ⟨fun _ => ?_, fun _ => trivial⟩
    split
    · trivial
    · simp only [wp_bind, wp_modify, wp_updateDelta]
      exact ⟨fun _ _ => ⟨trivial, trivial⟩, fun _ => trivial⟩
  simp only [checkAlreadyReversed, ReversedPaymentFrame.exists, wp_bind, wp_get, wp_pure, wp_ite]
  refine ⟨fun _ => .refl s, fun _ => ?_⟩
  refine wp_mono (wp_and hrows (ReversedPaymentFrame.wp_storeAdd (d := d))) (fun _ t ht => ?_)
    fun _ _ _ => trivial
  obtain ⟨⟨haccounts, hlines⟩, hstored⟩ := ht
  refine .of_lines hstored.kept.coherent ?_ hlines
  unfold KeyedAccounts
  rw [haccounts]
  exact fun h => h

theorem wp_loadSourceLine_sameLines {c : Custody} {noIssuer noTrust : OperationResultTr}
    (h : Readable s) (hc : InCustody c s) :
    wp (PathPaymentOpFrame.loadSourceLine app d c.source asset noIssuer noTrust)
      (fun f t => SameLines s t ∧ ShowsLine f t c.source asset) (fun _ _ => True) s := by
  unfold PathPaymentOpFrame.loadSourceLine
  rw [wp_bind]
  refine wp_mono (wp_and (wp_loadTrustLineIssuer_prepared h c.source asset)
    ((Program.loadTrustLineIssuer (d := d)).keepsCustody s hc)) (fun r t ht => ?_)
    fun _ _ _ => trivial
  obtain ⟨⟨hprepared, hline⟩, hkept, -⟩ := ht
  obtain ⟨line, issuer⟩ := r
  cases issuer with
  | none => cases line <;> trivial
  | some issuer =>
    cases line with
    | some line => exact ⟨hprepared.toSameLines, hline line rfl⟩
    | none =>
      simp only [wp_ite, wp_bind, getSourceAccount, wp_get, wp_deref]
      refine ⟨fun _ => ⟨fun source hsource => ?_, fun _ => trivial⟩, fun _ => trivial⟩
      have hid : source.getID = c.source := (hkept.custody.source source hsource).2.1
      refine wp_mono (wp_createTrustLine_prepared (hprepared.readable h) hid) (fun r u hu => ?_)
        fun _ _ _ => trivial
      cases r with
      | none => trivial
      | some r =>
        obtain ⟨hsame, hshows, -⟩ := hu r.1 r.2 rfl
        simp only [setSourceAccount, wp_bind, wp_modify, wp_pure]
        have hset : SameLines u { u with mSourceAccount := some r.2 } :=
          .of_lines (fun h => h) (fun h => h) rfl
        exact ⟨(hprepared.toSameLines.trans hsame).trans hset, hshows.ofAccount, hshows.inAsset,
          hshows.row⟩

theorem wp_loadSenderLine_sameLines {op : PaymentReversalOp} (h : Readable s) :
    wp (loadSenderLine app d op)
      (fun f t => SameLines s t ∧ ShowsLine f t op.paymentSource op.asset) (fun _ _ => True) s := by
  unfold loadSenderLine
  rw [wp_bind]
  refine wp_mono (wp_loadTrustLineIssuer_prepared h _ _) (fun r t ht => ?_) fun _ _ _ => trivial
  obtain ⟨hprepared, hline⟩ := ht
  obtain ⟨line, issuer⟩ := r
  cases issuer with
  | none => cases line <;> trivial
  | some issuer =>
    cases line with
    | some line => exact ⟨hprepared.toSameLines, hline line rfl⟩
    | none =>
      dsimp only
      rw [wp_bind]
      refine wp_mono (wp_loadAccount_prepared (hprepared.readable h) _) (fun r u hu => ?_)
        fun _ _ _ => trivial
      cases r with
      | none => trivial
      | some destination =>
        have hboth := hprepared.trans hu.1
        dsimp only
        rw [wp_bind]
        refine wp_mono (wp_createTrustLine_prepared (hboth.readable h)
          (hu.2 destination rfl).getID) (fun r v hv => ?_) fun _ _ _ => trivial
        cases r with
        | none => trivial
        | some r =>
          obtain ⟨hsame, hshows, -⟩ := hv r.1 r.2 rfl
          exact ⟨hboth.toSameLines.trans hsame, hshows⟩

/-- The three lines, one after the other. -/
theorem wp_doApply_moved {c : Custody} {op : PaymentReversalOp} (h : Readable s)
    (hc : InCustody c s) (hop : c.reversible op.paymentID) (hne : op.asset ≠ .native) :
    wp (doApply app d c.source op)
      (fun _ t => ∃ u v, Moved s u app.BANK_COMMISSION_KEY op.asset (-op.commissionAmount) ∧
        Moved u v c.source op.asset (int64 (-int64 (op.amount - op.commissionAmount))) ∧
          Moved v t op.paymentSource op.asset op.amount)
      (fun _ _ => True) s := by
  rw [doApply_eq, wp_bind, wp_failIf]
  refine ⟨fun _ => trivial, fun _ => ?_⟩
  rw [wp_bind]
  refine wp_mono (wp_and wp_checkAlreadyReversed_sameLines
    ((Program.checkAlreadyReversed hop).keepsCustody s hc)) (fun b s₁ hs₁ => ?_)
    fun _ _ _ => trivial
  obtain ⟨hmarked, hkept, -⟩ := hs₁
  rw [wp_bind, wp_failIf]
  refine ⟨fun _ => trivial, fun _ => ?_⟩
  have hcommission : wp (returnCommission app d op)
      (fun _ t => Moved s₁ t app.BANK_COMMISSION_KEY op.asset (-op.commissionAmount))
      (fun _ _ => True) s₁ := by
    rw [returnCommission, wp_bind]
    refine wp_mono (wp_loadTrustLine_prepared (hmarked.readable h) _ _) (fun o t ht => ?_)
      fun _ _ _ => trivial
    cases o with
    | none => trivial
    | some line =>
      refine wp_mono (wp_addAndStore_moved hne (ht.1.readable (hmarked.readable h)) (ht.2 line rfl))
        (fun _ u hu => ?_) fun _ _ _ => trivial
      exact ht.1.toSameLines.moved hu hne
  rw [wp_bind]
  refine wp_mono (wp_and hcommission (program_returnCommission.keepsCustody s₁ hkept.custody))
    (fun _ u hu => ?_) fun _ _ _ => trivial
  obtain ⟨hu, hkept', -⟩ := hu
  rw [returnAmount, wp_bind]
  refine wp_mono (wp_loadSourceLine_sameLines hu.readable hkept'.custody) (fun line v hv => ?_)
    fun _ _ _ => trivial
  rw [wp_bind, wp_failIf]
  refine ⟨fun _ => trivial, fun _ => ?_⟩
  rw [wp_bind]
  refine wp_mono (wp_addAndStore_moved hne (hv.1.readable hu.readable) hv.2) (fun _ w hw => ?_)
    fun _ _ _ => trivial
  rw [wp_bind]
  refine wp_mono (wp_loadSenderLine_sameLines hw.readable) (fun line x hx => ?_)
    fun _ _ _ => trivial
  rw [wp_bind, wp_failIf]
  refine ⟨fun _ => trivial, fun _ => ?_⟩
  rw [wp_bind]
  refine wp_mono (wp_addAndStore_moved hne (hx.1.readable hw.readable) hx.2) (fun _ t ht => ?_)
    fun _ _ _ => trivial
  exact ⟨u, w, hmarked.moved hu hne, hv.1.moved hw hne, hx.1.moved ht hne⟩

/-- The three accounts are distinct. -/
structure Distinct (app : Application) (sourceID : AccountID) (op : PaymentReversalOp) : Prop where
  source : sourceID ≠ app.BANK_COMMISSION_KEY
  sender : op.paymentSource ≠ app.BANK_COMMISSION_KEY
  both : op.paymentSource ≠ sourceID

/-- The commission is taken back and the rest from the source, and what was sent is given back. No
other line is changed. -/
structure Settled (app : Application) (sourceID : AccountID) (op : PaymentReversalOp)
    (s t : LedgerState) : Prop where
  commission : holding t.db app.BANK_COMMISSION_KEY op.asset =
    holding s.db app.BANK_COMMISSION_KEY op.asset - op.commissionAmount
  source : holding t.db sourceID op.asset =
    holding s.db sourceID op.asset - (op.amount - op.commissionAmount)
  sender : holding t.db op.paymentSource op.asset =
    holding s.db op.paymentSource op.asset + op.amount
  others : ∀ id asset, asset ≠ .native →
    ¬ (asset = op.asset ∧ (id = app.BANK_COMMISSION_KEY ∨ id = sourceID ∨ id = op.paymentSource)) →
      holding t.db id asset = holding s.db id asset

/-- The sums are 64-bit numbers, where one is made. -/
structure SumsFit (app : Application) (sourceID : AccountID) (op : PaymentReversalOp)
    (s : LedgerState) : Prop where
  commission : SumFits s app.BANK_COMMISSION_KEY op.asset (-op.commissionAmount)
  source : SumFits s sourceID op.asset (-(op.amount - op.commissionAmount))
  sender : SumFits s op.paymentSource op.asset op.amount

/-- **The three lines are changed by these amounts** exactly if the sums fit. -/
theorem settled_iff {sourceID : AccountID} {op : PaymentReversalOp}
    (hdistinct : Distinct app sourceID op) (hne : op.asset ≠ .native) (hamount : InRange op.amount)
    (hcommission : InRange op.commissionAmount) (hpos : 0 < op.amount)
    (hnonneg : 0 ≤ op.commissionAmount)
    (hu : Moved s t app.BANK_COMMISSION_KEY op.asset (-op.commissionAmount)) {v w : LedgerState}
    (hv : Moved t v sourceID op.asset (int64 (-int64 (op.amount - op.commissionAmount))))
    (hw : Moved v w op.paymentSource op.asset op.amount) :
    Settled app sourceID op s w ↔ SumsFit app sourceID op s := by
  obtain ⟨hsource, hsender, hboth⟩ := hdistinct
  have hrest : int64 (-int64 (op.amount - op.commissionAmount)) =
      -(op.amount - op.commissionAmount) := by
    obtain ⟨-, hmax⟩ := hamount
    obtain ⟨-, hmax'⟩ := hcommission
    have hrange : InRange (op.amount - op.commissionAmount) ∧
        InRange (-(op.amount - op.commissionAmount)) := by
      unfold InRange INT64_MIN INT64_MAX at *
      omega
    rw [int64_of_inRange hrange.1, int64_of_inRange hrange.2]
  rw [hrest] at hv
  -- each line is changed by one of the three moves only
  have hline₁ : holding w.db app.BANK_COMMISSION_KEY op.asset =
      holding t.db app.BANK_COMMISSION_KEY op.asset := by
    rw [hw.others _ _ hne fun h => hsender h.1.symm, hv.others _ _ hne fun h => hsource h.1.symm]
  have hline₂ : holding w.db sourceID op.asset = holding v.db sourceID op.asset :=
    hw.others _ _ hne fun h => hboth h.1.symm
  have hbefore₂ : holding t.db sourceID op.asset = holding s.db sourceID op.asset :=
    hu.others _ _ hne fun h => hsource h.1
  have hbefore₃ : holding v.db op.paymentSource op.asset =
      holding s.db op.paymentSource op.asset := by
    rw [hv.others _ _ hne fun h => hboth h.1, hu.others _ _ hne fun h => hsender h.1]
  have hfits₂ : SumFits t sourceID op.asset (-(op.amount - op.commissionAmount)) ↔
      SumFits s sourceID op.asset (-(op.amount - op.commissionAmount)) := by
    rw [SumFits, SumFits, hbefore₂]
  have hfits₃ : SumFits v op.paymentSource op.asset op.amount ↔
      SumFits s op.paymentSource op.asset op.amount := by
    rw [SumFits, SumFits, hbefore₃]
  have hexact₁ := hu.exact_iff
  have hexact₂ := hv.exact_iff
  have hexact₃ := hw.exact_iff
  rw [hbefore₂, hfits₂, ← hline₂] at hexact₂
  rw [hbefore₃, hfits₃] at hexact₃
  rw [← hline₁] at hexact₁
  constructor
  · intro h
    exact ⟨hexact₁.mp h.commission, hexact₂.mp h.source, hexact₃.mp h.sender⟩
  · intro h
    refine ⟨hexact₁.mpr h.commission, hexact₂.mpr h.source, hexact₃.mpr h.sender,
      fun id asset hne' hnot => ?_⟩
    rw [hw.others id asset hne' fun h => hnot ⟨h.2, Or.inr (Or.inr h.1)⟩,
      hv.others id asset hne' fun h => hnot ⟨h.2, Or.inr (Or.inl h.1)⟩,
      hu.others id asset hne' fun h => hnot ⟨h.2, Or.inl h.1⟩]

/-- What is settled does not depend on how the lines are stored before. -/
theorem settled_iff_of_sameLines {sourceID : AccountID} {op : PaymentReversalOp}
    (h : SameLines s t) (hne : op.asset ≠ .native)
    (ht : Settled app sourceID op t u ↔ SumsFit app sourceID op t) :
    Settled app sourceID op s u ↔ SumsFit app sourceID op s := by
  have hsettled : Settled app sourceID op s u ↔ Settled app sourceID op t u := by
    constructor
    · intro hu
      refine ⟨?_, ?_, ?_, fun id asset hne' hnot => ?_⟩
      · rw [h.holding hne, hu.commission]
      · rw [h.holding hne, hu.source]
      · rw [h.holding hne, hu.sender]
      · rw [h.holding hne', hu.others id asset hne' hnot]
    · intro hu
      refine ⟨?_, ?_, ?_, fun id asset hne' hnot => ?_⟩
      · rw [← h.holding hne, hu.commission]
      · rw [← h.holding hne, hu.source]
      · rw [← h.holding hne, hu.sender]
      · rw [← h.holding hne', hu.others id asset hne' hnot]
  have hfit : ∀ id change, SumFits t id op.asset change ↔ SumFits s id op.asset change := by
    intro id change
    rw [SumFits, SumFits, h.holding hne]
  rw [hsettled, ht]
  constructor
  · intro hu
    exact ⟨(hfit _ _).mp hu.commission, (hfit _ _).mp hu.source, (hfit _ _).mp hu.sender⟩
  · intro hu
    exact ⟨(hfit _ _).mpr hu.commission, (hfit _ _).mpr hu.source, (hfit _ _).mpr hu.sender⟩

theorem wp_doCheckValid_positive {op : PaymentReversalOp} :
    wp (doCheckValid app op)
      (fun _ t => t = s ∧ 0 < op.amount ∧ 0 ≤ op.commissionAmount ∧ op.asset ≠ .native)
      (fun _ _ => True) s := by
  simp only [doCheckValid, wp_bind, wp_failIf]
  refine ⟨fun _ => trivial, fun hpos => ⟨fun _ => trivial, fun hnonneg => ⟨fun _ => trivial,
    fun hasset => ⟨trivial, not_le.mp hpos, not_lt.mp hnonneg, fun hnative => ?_⟩⟩⟩⟩
  exact hasset (Or.inr hnative)

end PaymentReversalOpFrame

open PaymentReversalOpFrame in
/-- The check of a reversal changes no line, and refuses what is not positive. -/
theorem wp_checkValid_settled {o : PaymentReversalOp} (hc : Contained anyCustody s)
    (hbody : op.body = .PAYMENT_REVERSAL o) :
    wp (OperationFrame.checkValid app env (some d) op fee)
      (fun _ t => SameLines s t ∧ InCustody ((Custody.marking op).of env op) t ∧
        0 < o.amount ∧ 0 ≤ o.commissionAmount ∧ o.asset ≠ .native) (fun _ _ => True) s := by
  refine wp_checkValid_own (hc.marking op) (fun _ _ _ => trivial) fun u hchecked hcu => ?_
  rw [OperationFrame.doCheckValid, hbody]
  refine wp_mono wp_doCheckValid_positive (fun _ v hv => ?_) fun _ _ _ => trivial
  obtain ⟨rfl, hpos, hnonneg, hne⟩ := hv
  exact ⟨(Prepared.of_loaded hchecked.loaded).toSameLines, hcu, hpos, hnonneg, hne⟩

open PaymentReversalOpFrame in
/-- A reversal that is carried out settles the three lines exactly if the sums fit. -/
theorem wp_doApply_settled {o : PaymentReversalOp} (hs : Readable s)
    (hc : InCustody ((Custody.marking op).of env op) s)
    (hbody : op.body = .PAYMENT_REVERSAL o) (hne : o.asset ≠ .native) (hpos : 0 < o.amount)
    (hnonneg : 0 ≤ o.commissionAmount) (hamount : InRange o.amount)
    (hcommission : InRange o.commissionAmount) (hdistinct : Distinct app (getSourceID env op) o) :
    wp (OperationFrame.doApply app env d op fee)
      (fun _ t => Settled app (getSourceID env op) o s t ↔ SumsFit app (getSourceID env op) o s)
      (fun _ _ => True) s := by
  have hreversible : ((Custody.marking op).of env op).reversible o.paymentID :=
    (admits_marking env op).reversal o hbody
  have hmoved : wp (PaymentReversalOpFrame.doApply app d (getSourceID env op) o)
      (fun _ t => ∃ u v, Moved s u app.BANK_COMMISSION_KEY o.asset (-o.commissionAmount) ∧
        Moved u v (getSourceID env op) o.asset (int64 (-int64 (o.amount - o.commissionAmount))) ∧
          Moved v t o.paymentSource o.asset o.amount) (fun _ _ => True) s :=
    wp_doApply_moved (c := (Custody.marking op).of env op) hs hc hreversible hne
  rw [OperationFrame.doApply, hbody]
  change wp (PaymentReversalOpFrame.doApply app d (getSourceID env op) o >>= fun result =>
    pure (OperationResultTr.paymentReversalResult result)) _ _ s
  rw [wp_bind]
  refine wp_mono hmoved (fun _ t ht => ?_) fun _ _ _ => trivial
  obtain ⟨u, v, hu, hv, ht⟩ := ht
  exact settled_iff hdistinct hne hamount hcommission hpos hnonneg hu hv ht

open PaymentReversalOpFrame in
/-- **A reversal that succeeds** settles the three lines exactly if the sums fit. -/
theorem wp_apply_settled {o : PaymentReversalOp} (hc : Contained anyCustody s) (hs : Readable s)
    (hbody : op.body = .PAYMENT_REVERSAL o) (hamount : InRange o.amount)
    (hcommission : InRange o.commissionAmount) (hdistinct : Distinct app (getSourceID env op) o) :
    wp (OperationFrame.apply app env d op fee)
      (fun succeeded t => succeeded = true →
        (Settled app (getSourceID env op) o s t ↔ SumsFit app (getSourceID env op) o s))
      (fun _ _ => True) s := by
  have happlied : wp (do
      OperationFrame.checkValid app env (some d) op fee
      return (true, OperationResult.opINNER (← OperationFrame.doApply app env d op fee)))
      (fun r t => r.1 = true →
        (Settled app (getSourceID env op) o s t ↔ SumsFit app (getSourceID env op) o s))
      (fun _ _ => True) s := by
    rw [wp_bind]
    refine wp_mono (wp_checkValid_settled hc hbody) (fun _ t ht => ?_) fun _ _ _ => trivial
    obtain ⟨hsame, hcustody, hpos, hnonneg, hne⟩ := ht
    rw [wp_bind]
    refine wp_mono (wp_doApply_settled (hsame.readable hs) hcustody hbody hne hpos hnonneg hamount
      hcommission hdistinct) (fun _ u hu _ => ?_) fun _ _ _ => trivial
    exact settled_iff_of_sameLines hsame hne hu
  unfold OperationFrame.apply
  rw [wp_bind, wp_tryCatch]
  refine wp_mono happlied (fun r t ht => ?_) fun ex t _ => ?_
  · simp only [syncSigningAccount, wp_bind, wp_modify, wp_pure]
    exact fun hr => ⟨fun h => (ht hr).mp ⟨h.commission, h.source, h.sender, h.others⟩,
      fun h => ⟨((ht hr).mpr h).commission, ((ht hr).mpr h).source, ((ht hr).mpr h).sender,
        ((ht hr).mpr h).others⟩⟩
  · cases ex with
    | opFailed r =>
      simp only [syncSigningAccount, wp_bind, wp_modify, wp_pure]
      exact fun hfalse => absurd hfalse Bool.false_ne_true
    | _ => trivial

end SmartCore.Transactions
