import SmartCore.Transactions.Noted

/-!
# The payments that a ledger marks

A reversal marks its payment before it moves anything, and fails if the payment is marked already.
Whatever fails later, in the operation or in another one of its transaction, the mark is undone with
the transaction.

**Theorem (`wp_closeLedger_reversed`).** A ledger marks the payments that its successful
transactions reverse. None of them was marked before, none is reversed twice, and its delta has them
as new entries, and no others.
-/

namespace SmartCore.Transactions

open SmartCore.Ledger TransactionFrame OperationFrame LedgerManager

variable {app : Application} {env : TransactionEnvelope} {op : Operation}
  {fee : Option OperationFee} {s t u : LedgerState} {d : ℕ} {α : Type}

/-! ## Marks -/

/-- The payments that an operation reverses. -/
def reverses (op : Operation) : List ℤ :=
  match op.body with
  | .PAYMENT_REVERSAL o => [o.paymentID]
  | _ => []

/-- The payments that the operations of a transaction reverse, in their order. -/
def reversals (env : TransactionEnvelope) : List ℤ := env.tx.operations.flatMap reverses

/-- These payments were marked, which were not marked before, and no others. -/
structure MarksOnce (ids : List ℤ) (db db' : Database) : Prop where
  marks : ∀ rID, rID ∈ db'.reversedPayment ↔ rID ∈ db.reversedPayment ∨ rID ∈ ids
  fresh : ∀ rID ∈ ids, rID ∉ db.reversedPayment
  nodup : ids.Nodup

namespace MarksOnce

variable {ids ids' : List ℤ} {db db' db'' : Database}

theorem of_iff (h : ∀ rID, rID ∈ db'.reversedPayment ↔ rID ∈ db.reversedPayment) :
    MarksOnce [] db db' :=
  ⟨fun rID => by simp [h], nofun, List.nodup_nil⟩

theorem refl (db : Database) : MarksOnce [] db db := of_iff fun _ => Iff.rfl

theorem trans (h : MarksOnce ids db db') (h' : MarksOnce ids' db' db'') :
    MarksOnce (ids ++ ids') db db'' := by
  refine ⟨fun rID => ?_, fun rID hmem => ?_, ?_⟩
  · rw [h'.marks, h.marks, List.mem_append, or_assoc]
  · rcases List.mem_append.mp hmem with hmem | hmem
    · exact h.fresh rID hmem
    · exact fun hs => h'.fresh rID hmem ((h.marks rID).mpr (Or.inl hs))
  · refine List.nodup_append.mpr ⟨h.nodup, h'.nodup, ?_⟩
    intro rID hmem rID' hmem' heq
    subst heq
    exact h'.fresh rID hmem' ((h.marks rID).mpr (Or.inr hmem))

end MarksOnce

/-- The payments are marked, and noted in the delta. -/
structure Reversed (e : ℕ) (ids : List ℤ) (s t : LedgerState) : Prop where
  noted : Noted e s t
  once : MarksOnce ids s.db t.db

namespace Reversed

variable {e : ℕ} {ids ids' : List ℤ}

theorem trans (h : Reversed e ids s t) (h' : Reversed e ids' t u) :
    Reversed e (ids ++ ids') s u :=
  ⟨h.noted.trans h'.noted, h.once.trans h'.once⟩

theorem of_loaded (hs : Noting e s) (h : Loaded d s t) : Reversed e [] s t :=
  ⟨.of_loaded hs h, .of_iff fun _ => by rw [h.db]⟩

theorem of_eq (hs : Noting e s) (hdb : t.db = s.db) (hdeltas : t.deltas = s.deltas) :
    Reversed e [] s t :=
  ⟨.of_eq hs (fun _ => by rw [hdb]) (by rw [hdb]) hdeltas, .of_iff fun _ => by rw [hdb]⟩

/-- What is in memory for a transaction. -/
theorem memory (h : Reversed e ids s t) (hs : Noting e s) (hdb : u.db = t.db)
    (hdeltas : u.deltas = t.deltas) : Reversed e ids s u := by
  have htrans := h.trans (.of_eq (h.noted.noting hs) hdb hdeltas)
  rwa [List.append_nil] at htrans

end Reversed

/-! ## A reversal -/

namespace PaymentReversalOpFrame

/-- The commission is taken back. -/
def returnCommission (app : Application) (d : ℕ) (op : PaymentReversalOp) : LedgerM Unit := do
  match ← TrustFrame.loadTrustLine d app.BANK_COMMISSION_KEY op.asset with
  | none => fail (result .PAYMENT_REVERSAL_COMMISSION_UNDERFUNDED)
  | some commissionDestLine =>
    addAndStore d commissionDestLine (-op.commissionAmount)
      .PAYMENT_REVERSAL_COMMISSION_UNDERFUNDED

/-- The rest is taken from the source, and the account that the payment came from gets all. -/
def returnAmount (app : Application) (d : ℕ) (sourceID : AccountID) (op : PaymentReversalOp) :
    LedgerM PaymentReversalResult := do
  let sourceLine ← PathPaymentOpFrame.loadSourceLine app d sourceID op.asset
    (result .PAYMENT_REVERSAL_NO_ISSUER) (result .PAYMENT_REVERSAL_SRC_NO_TRUST)
  failIf (!sourceLine.isAuthorized) (result .PAYMENT_REVERSAL_SRC_NOT_AUTHORIZED)
  let sourceRecieved := int64 (op.amount - op.commissionAmount)
  addAndStore d sourceLine (int64 (-sourceRecieved)) .PAYMENT_REVERSAL_UNDERFUNDED
  let destLine ← loadSenderLine app d op
  failIf (!destLine.isAuthorized) (result .PAYMENT_REVERSAL_PAYMENT_SENDER_NOT_AUTHORIZED)
  addAndStore d destLine op.amount .PAYMENT_REVERSAL_PAYMENT_SENDER_LINE_FULL
  return .PAYMENT_REVERSAL_SUCCESS

theorem doApply_eq {sourceID : AccountID} {op : PaymentReversalOp} :
    doApply app d sourceID op = (do
      failIf (!checkAllowed) (result .PAYMENT_REVERSAL_NOT_ALLOWED)
      failIf (!(← checkAlreadyReversed d op)) (result .PAYMENT_REVERSAL_ALREADY_REVERSED)
      returnCommission app d op
      returnAmount app d sourceID op) := by
  refine bind_congr fun _ => bind_congr fun _ => bind_congr fun _ => ?_
  rw [returnCommission, bind_assoc]
  refine bind_congr fun o => ?_
  cases o <;> rfl

section Program

variable {c : Custody} {op : PaymentReversalOp}

theorem program_returnCommission :
    Program c (.inside d) (returnCommission app d op) fun _ => True := by
  rw [returnCommission]
  refine Program.loadTrustLine.seq fun o => ?_
  split
  · exact Program.fail
  · exact Program.addAndStore

theorem program_returnAmount {sourceID : AccountID} :
    Program c (.inside d) (returnAmount app d sourceID op) fun _ => True := by
  rw [returnAmount]
  exact Program.loadSourceLine.seq fun _ => Program.failIf.seq fun _ => Program.addAndStore.seq
    fun _ => Program.loadSenderLine.seq fun _ => Program.failIf.seq fun _ =>
      Program.addAndStore.seq fun _ => .pure True.intro

end Program

/-- **The payment is marked**, which must not have been marked before. -/
theorem wp_doApply_marks {c : Custody} {sourceID : AccountID} {op : PaymentReversalOp}
    (hs : InCustody c s) (hop : c.reversible op.paymentID) :
    wp (doApply app d sourceID op)
      (fun _ t => op.paymentID ∉ s.db.reversedPayment ∧ op.paymentID ∈ t.db.reversedPayment)
      (fun _ _ => True) s := by
  have hmark : wp (checkAlreadyReversed d op)
      (fun b t => b = true → op.paymentID ∉ s.db.reversedPayment ∧
        op.paymentID ∈ t.db.reversedPayment) (fun _ _ => True) s := by
    simp only [checkAlreadyReversed, ReversedPaymentFrame.exists, ReversedPaymentFrame.storeAdd,
      touch, assertion, wp_bind, wp_get, wp_pure, wp_ite, wp_require]
    refine ⟨fun _ => ?_, fun hnew => ⟨fun _ => ?_, fun _ => trivial⟩⟩
    · exact fun h => absurd h Bool.false_ne_true
    split
    · trivial
    · simp only [wp_bind, wp_modify, wp_updateDelta]
      refine ⟨fun _ _ _ => ⟨by simpa using hnew, Std.ExtTreeMap.mem_insert_self⟩, fun _ => trivial⟩
  rw [doApply_eq]
  rw [wp_bind, wp_failIf]
  refine ⟨fun _ => trivial, fun _ => ?_⟩
  rw [wp_bind]
  refine wp_mono (wp_and hmark ((Program.checkAlreadyReversed hop).keepsCustody s hs))
    (fun b t ht => ?_) fun _ _ _ => trivial
  rw [wp_bind, wp_failIf]
  refine ⟨fun _ => trivial, fun hb => ?_⟩
  obtain ⟨hmarked, hkept, -⟩ := ht
  obtain ⟨hfresh, hin⟩ := hmarked (by simpa using hb)
  have hrest : Program c (.inside d) (do
      returnCommission app d op
      returnAmount app d sourceID op) fun _ => True :=
    program_returnCommission.seq fun _ => program_returnAmount
  refine wp_mono (hrest.keepsCustody t hkept.custody) (fun _ u hu => ?_) fun _ _ _ => trivial
  exact ⟨hfresh, hu.1.marks.kept _ hin⟩

end PaymentReversalOpFrame

/-! ## Operations -/

/-- The custody in which an operation may mark what it reverses, and nothing else. -/
def Custody.marking (op : Operation) : Custody :=
  { anyCustody with reversible := (· ∈ reverses op) }

theorem Contained.marking (h : Contained anyCustody s) (op : Operation) :
    Contained (.marking op) s :=
  ⟨h.rows, h.free, h.cached, h.signing, h.source⟩

theorem admits_marking (env : TransactionEnvelope) (op : Operation) :
    Admits ((Custody.marking op).of env op) op := by
  refine ⟨trivial, fun _ _ => trivial, fun _ _ _ _ _ => trivial,
    fun _ _ => ⟨fun _ _ _ _ => trivial, fun _ => trivial, fun _ _ => trivial⟩, fun o ho => ?_⟩
  show o.paymentID ∈ reverses op
  rw [reverses, ho]
  exact List.mem_singleton_self _

/-- The check of an operation marks nothing. -/
theorem wp_checkValid_reversed (hc : Contained anyCustody s) (hs : Noting d s) :
    wp (OperationFrame.checkValid app env (some d) op fee)
      (fun _ t => Reversed d [] s t ∧ InCustody ((Custody.marking op).of env op) t)
      (fun ex t => ∀ r, ex = .opFailed r → Noted d s t) s := by
  refine wp_checkValid_own (hc.marking op) (fun _ t ht _ _ => .of_loaded hs ht.loaded)
    fun u hchecked hcu => ?_
  have hread : Reversed d [] s u := .of_loaded hs hchecked.loaded
  have hprogram : ∀ c, Program c (.inside d) (OperationFrame.doCheckValid app env op fee)
      fun _ => True := fun _ => Program.doCheckValid
  refine wp_mono (wp_and (wp_and ((hprogram _).keepsNoted u hcu (hread.noted.noting hs))
    ((hprogram _).keepsCustody u hcu)) ((hprogram _).keepsCustody u hcu.unmarked))
    (fun _ v hv => ?_) fun _ _ hv r hr => hread.noted.trans (hv.1.1 r hr)
  obtain ⟨⟨hnoted, hkept, -⟩, hunmarked, -⟩ := hv
  exact ⟨hread.trans ⟨hnoted, .of_iff hunmarked.marks.iff⟩, hkept.custody⟩

/-- What an operation marks. -/
theorem wp_doApply_reversed (hc : InCustody ((Custody.marking op).of env op) s)
    (hs : Noting d s) :
    wp (OperationFrame.doApply app env d op fee) (fun _ t => Reversed d (reverses op) s t)
      (fun ex t => ∀ r, ex = .opFailed r → Noted d s t) s := by
  have hprogram : Program ((Custody.marking op).of env op) (.inside d)
      (OperationFrame.doApply app env d op fee) fun _ => True :=
    Program.doApply (admits_marking env op)
  have hmarked : wp (OperationFrame.doApply app env d op fee)
      (fun _ t => ∀ rID ∈ reverses op, rID ∉ s.db.reversedPayment ∧ rID ∈ t.db.reversedPayment)
      (fun _ _ => True) s := by
    have hnone : reverses op = [] → wp (OperationFrame.doApply app env d op fee)
        (fun _ t => ∀ rID ∈ reverses op, rID ∉ s.db.reversedPayment ∧
          rID ∈ t.db.reversedPayment) (fun _ _ => True) s := fun h =>
      wp_mono (wp_trivial _) (fun _ _ _ rID hr => by rw [h] at hr; cases hr) fun _ _ h => h
    cases hbody : op.body with
    | PAYMENT_REVERSAL o =>
      have hids : reverses op = [o.paymentID] := by rw [reverses, hbody]
      have hadmits := (admits_marking env op).reversal o hbody
      rw [OperationFrame.doApply, hbody, hids]
      simp only [wp_bind, wp_pure, List.mem_singleton, forall_eq]
      exact PaymentReversalOpFrame.wp_doApply_marks hc hadmits
    | _ => exact hnone (by rw [reverses, hbody])
  refine wp_mono (wp_and (wp_and (hprogram.keepsNoted s hc hs) (hprogram.keepsCustody s hc))
    hmarked) (fun _ t ht => ?_) fun _ _ ht => ht.1.1
  obtain ⟨⟨hnoted, hkept, -⟩, hmarked⟩ := ht
  refine ⟨hnoted, fun rID => ⟨fun hr => hkept.marks.new rID hr, fun hr => ?_⟩,
    fun rID hr => (hmarked rID hr).1, ?_⟩
  · rcases hr with hr | hr
    · exact hkept.marks.kept rID hr
    · exact (hmarked rID hr).2
  · rw [reverses]
    split
    · exact List.nodup_singleton _
    · exact List.nodup_nil

/-- **An operation that succeeds** has marked what it reverses. -/
theorem wp_apply_reversed (hc : Contained anyCustody s) (hs : Noting d s) :
    wp (OperationFrame.apply app env d op fee)
      (fun succeeded t => Noted d s t ∧ (succeeded = true → MarksOnce (reverses op) s.db t.db))
      (fun ex _ => ∀ r, ex ≠ .opFailed r) s := by
  have hbody : wp (do
      OperationFrame.checkValid app env (some d) op fee
      return (true, OperationResult.opINNER (← OperationFrame.doApply app env d op fee)))
      (fun r t => Noted d s t ∧ (r.1 = true → MarksOnce (reverses op) s.db t.db))
      (fun ex t => ∀ r, ex = .opFailed r → Noted d s t) s := by
    simp only [wp_bind, wp_pure]
    refine wp_mono (wp_checkValid_reversed hc hs) (fun _ t ht => ?_) fun _ _ ht => ht
    obtain ⟨hchecked, hcustody⟩ := ht
    refine wp_mono (wp_doApply_reversed hcustody (hchecked.noted.noting hs)) (fun _ u hu => ?_)
      fun _ _ hu r hr => hchecked.noted.trans (hu r hr)
    have happlied := hchecked.trans hu
    exact ⟨happlied.noted, fun _ => happlied.once⟩
  have hrest : ∀ (r : Bool × OperationResult) t, Noted d s t →
      (r.1 = true → MarksOnce (reverses op) s.db t.db) →
      wp (do
        syncSigningAccount env op
        modify fun s : LedgerState => { s with results := s.results ++ [r.2] }
        return r.1)
        (fun succeeded u => Noted d s u ∧
          (succeeded = true → MarksOnce (reverses op) s.db u.db))
        (fun ex _ => ∀ r, ex ≠ .opFailed r) t := by
    intro r t hnoted honce
    simp only [syncSigningAccount, wp_bind, wp_modify, wp_pure]
    exact ⟨hnoted.trans (.of_eq (hnoted.noting hs) (fun _ => Iff.rfl) rfl rfl), honce⟩
  unfold OperationFrame.apply
  rw [wp_bind, wp_tryCatch]
  refine wp_mono hbody (fun r t ht => hrest r t ht.1 ht.2) fun ex t ht => ?_
  cases ex with
  | opFailed r => exact hrest _ t (ht r rfl) (by simp)
  | _ =>
    intro r hr
    cases hr

/-! ## Transactions -/

/-- A delta that is left where the code returns. -/
theorem wp_nested_reversed {x : LedgerM α} {P : α → Database → Prop} (hs : Noting d s)
    (hx : wp x (fun a t => Noted (d + 1) (withDelta d s) t ∧ P a t.db) (fun _ _ => True)
      (withDelta d s)) :
    wp (nested d x) (fun a t => Noted d s t ∧ P a t.db) (fun _ _ => True) s := by
  simp only [nested, openDelta, rollback, wp_bind, wp_modify, wp_tryCatch, wp_throw, wp_pure]
  refine wp_mono hx (fun a t ht => ?_) fun _ _ _ => trivial
  refine wp_mono (wp_and (wp_commit_noted hs ht.1) (wp_commit_delta d t)) (fun _ u hu => ?_)
    fun _ _ _ => trivial
  obtain ⟨hnoted, δ, rfl, -⟩ := hu
  exact ⟨hnoted, ht.2⟩

/-- An operation in its own delta. -/
theorem wp_applyWithMeta_reversed {o : Operation × Option OperationFee}
    (hc : Contained anyCustody s) (hs : Noting d s) :
    wp (applyWithMeta app env d o)
      (fun succeeded t => Noted d s t ∧
        (succeeded = true → MarksOnce (reverses o.1) s.db t.db)) (fun _ _ => True) s := by
  have hopened : Contained anyCustody (withDelta d s) := hc.of_eq rfl (fun _ hp => hp) rfl rfl
  refine wp_nested_reversed
    (P := fun succeeded db => succeeded = true → MarksOnce (reverses o.1) s.db db) hs ?_
  simp only [wp_bind, wp_modify, wp_pure]
  refine wp_mono (wp_apply_reversed hopened hs.opened) (fun succeeded t ht => ?_)
    fun _ _ _ => trivial
  obtain ⟨hnoted, honce⟩ := ht
  exact ⟨hnoted.trans (.of_eq (hnoted.noting hs.opened) (fun _ => Iff.rfl) rfl rfl), honce⟩

/-- The operations in order. If they all succeed, then they have marked what they reverse. -/
theorem wp_applyOperations_reversed {ops : List (Operation × Option OperationFee)}
    (hc : Contained anyCustody s) (hs : Noting d s) :
    wp (applyOperations app env d ops)
      (fun failed t => Noted d s t ∧
        (failed = false → MarksOnce (ops.flatMap fun o => reverses o.1) s.db t.db))
      (fun _ _ => True) s := by
  induction ops generalizing s with
  | nil => exact ⟨.refl hs, fun _ => .refl _⟩
  | cons o ops ih =>
    have hsplit : applyOperations app env d (o :: ops) = (do
      let txRes ← applyWithMeta app env d o
      let errorEncountered ← applyOperations app env d ops
      return !txRes || errorEncountered) := rfl
    rw [hsplit, wp_bind]
    refine wp_mono (wp_and (wp_applyWithMeta_reversed hc hs)
      (keepsContained_applyWithMeta (fun _ => admits_any env o.1) s hc))
      (fun txRes t ht => ?_) fun _ _ _ => trivial
    obtain ⟨⟨hnoted, honce⟩, ht, -⟩ := ht
    rw [wp_bind]
    refine wp_mono (ih ht (hnoted.noting hs)) (fun failed u hu => ?_) fun _ _ _ => trivial
    refine ⟨hnoted.trans hu.1, fun hok => ?_⟩
    obtain ⟨hres, herror⟩ := Bool.or_eq_false_iff.mp hok
    exact (honce (by simpa using hres)).trans (hu.2 herror)

theorem flatMap_mOperations (env : TransactionEnvelope) :
    ((mOperations env).flatMap fun o => reverses o.1) = reversals env := by
  have hfst : (mOperations env).map (·.1) = env.tx.operations := by
    rw [mOperations, List.map_map]
    exact List.zipIdx_map_fst 0 env.tx.operations
  rw [reversals, ← hfst, List.flatMap_map]

/-- All operations of a transaction. -/
theorem wp_applyAll_reversed (hc : Contained anyCustody s) (hs : Noting d s) :
    wp (applyAll app env d)
      (fun _ t => Noted d s t ∧ MarksOnce (reversals env) s.db t.db) (fun _ _ => True) s := by
  have hopened : Contained anyCustody (withDelta d s) := hc.of_eq rfl (fun _ hp => hp) rfl rfl
  refine wp_nested_reversed (P := fun _ db => MarksOnce (reversals env) s.db db) hs ?_
  rw [wp_sqlTransaction, wp_bind]
  refine wp_mono (wp_applyOperations_reversed hopened hs.opened) (fun failed t ht => ?_)
    fun _ _ _ => trivial
  obtain ⟨hnoted, honce⟩ := ht
  cases failed with
  | true => simp only [↓reduceIte, wp_bind, wp_get, wp_throw]
  | false =>
    simp only [Bool.false_eq_true, ↓reduceIte, checkAllSignaturesUsed, wp_bind, wp_get, wp_ite,
      wp_pure, wp_throw, implies_true, and_true]
    rw [flatMap_mOperations] at honce
    exact fun _ => ⟨hnoted, honce rfl⟩

/-- A transaction that succeeds. -/
theorem wp_apply_marks (hc : Contained anyCustody s) (hs : Noting 1 s) :
    wp (TransactionFrame.apply app env 1)
      (fun succeeded t => succeeded = true → Noted 1 s t ∧ MarksOnce (reversals env) s.db t.db)
      (fun _ _ => True) s := by
  have hbody : wp (do
      checks app env
      applyAll app env 1
      modify fun s => { s with mResult := .txSUCCESS s.results }
      return true)
      (fun succeeded t => succeeded = true → Noted 1 s t ∧ MarksOnce (reversals env) s.db t.db)
      (fun _ _ => True) s := by
    have hloads : OnlyLoads 1 (checks app env) :=
      OnlyLoads.resetSignatureTracker.bind fun _ => .commonValid
    have hcontained : KeepsContained anyCustody (checks app env) fun _ => True :=
      keepsContained_resetSignatureTracker.seq fun _ => keepsContained_commonValid
    rw [wp_bind]
    refine wp_mono (wp_and (hloads s) (hcontained s hc)) (fun _ t ht => ?_) fun _ _ _ => trivial
    obtain ⟨hchecked, hct, -⟩ := ht
    have hread : Noted 1 s t := .of_loaded hs hchecked.loaded
    rw [wp_bind]
    refine wp_mono (wp_applyAll_reversed hct (hread.noting hs)) (fun _ u hu => ?_)
      fun _ _ _ => trivial
    simp only [wp_bind, wp_modify, wp_pure]
    obtain ⟨hnoted, honce⟩ := hu
    have hu := hread.trans hnoted
    rw [hchecked.loaded.db] at honce
    exact fun _ => ⟨hu.trans (.of_eq (hu.noting hs) (fun _ => Iff.rfl) rfl rfl), honce⟩
  simp only [checks, bind_assoc] at hbody
  unfold TransactionFrame.apply
  rw [wp_tryCatch]
  refine wp_mono hbody (fun _ _ ht => ht) fun ex _ _ => ?_
  cases ex with
  | txFailed r =>
    cases r <;>
    · intro hsucceeded
      cases hsucceeded
  | _ => trivial

/-! ## Ledgers -/

/-- Whether a transaction is applied with success. -/
def applies (app : Application) (env : TransactionEnvelope) (s : LedgerState) : Bool :=
  match TransactionFrame.apply app env 1 (begun s) with
  | .ok succeeded _ => succeeded
  | .error _ _ => false

theorem applies_iff :
    applies app env s = true ↔ ∃ t, TransactionFrame.apply app env 1 (begun s) = .ok true t := by
  rw [applies]
  cases TransactionFrame.apply app env 1 (begun s) with
  | ok succeeded t => simp
  | error e t => simp

/-- The transactions of a ledger that are applied with success. -/
def successes (app : Application) : List TransactionEnvelope → LedgerState →
    List TransactionEnvelope
  | [], _ => []
  | env :: txs, s =>
    match applyTransaction app env s with
    | .ok () t => if applies app env s then env :: successes app txs t else successes app txs t
    | .error _ _ => []

/-- A transaction that is undone has marked nothing. -/
theorem Undone.reversed (h : Undone s t) (hs : Noting 0 s) : Reversed 0 [] s t := by
  have hdelta : ∀ j ≤ 0, t.deltas j = s.deltas j := fun j hj => by rw [Nat.le_zero.mp hj, h.delta]
  have htidy : Tidy 0 t := ⟨hs.tidy.lines.of_eq (by rw [h.rows]), fun j hj => by
    rw [hdelta j hj]
    exact hs.tidy.deltas j hj⟩
  refine ⟨.of_same hs htidy (fun rID => by rw [h.rows]) fun j hj rID => ?_,
    .of_iff fun rID => by rw [h.rows]⟩
  rw [hdelta j hj]
  exact .refl _ _

/-- **A transaction** marks what it reverses if it succeeds, and else nothing. -/
theorem wp_applyTransaction_reversed (h : Ordered s) (hs : Noting 0 s) :
    wp (applyTransaction app env)
      (fun _ t => Reversed 0 (if applies app env s then reversals env else []) s t)
      (fun _ _ => True) s := by
  have hstart : Noting 0 (newFrames s) := ⟨hs.tidy.of_eq rfl rfl, hs.onlyNew⟩
  have hbefore : Noted 0 s (newFrames s) := .of_eq hs (fun _ => Iff.rfl) rfl rfl
  have hbegun : Contained anyCustody (begun s) := h.contained.newFrames rfl (fun _ hp => hp) rfl rfl
  have hdone : wp (nested 0 (applyInDelta app env))
      (fun _ t => Noted 0 s t ∧ MarksOnce (reversals env) s.db t.db) (fun _ _ => True)
      (newFrames s) := by
    refine wp_mono (wp_nested_reversed (P := fun _ db => MarksOnce (reversals env) s.db db)
      hstart ?_) (fun _ t ht => ⟨hbefore.trans ht.1, ht.2⟩) fun _ _ h => h
    rw [applyInDelta, wp_bind]
    refine wp_mono (wp_apply_marks hbegun hstart.opened) (fun succeeded t ht => ?_)
      fun _ _ _ => trivial
    cases succeeded with
    | true => exact ht rfl
    | false =>
      simp only [Bool.false_eq_true, ↓reduceIte, assertion, wp_bind, wp_get, wp_require, wp_throw,
        implies_true, and_true]
  unfold applyTransaction storeTransaction
  simp only [wp_bind, wp_modify, wp_tryCatch]
  refine wp_mono (wp_and hdone
    (wp_nested_applyInDelta (admitsAll_anyCustody app env) h.contained h.coherent))
    (fun _ t ht => ?_) fun e t ht => ?_
  · obtain ⟨⟨hnoted, honce⟩, -, -, -, hok⟩ := ht
    rw [if_pos (applies_iff.mpr hok)]
    exact Reversed.memory ⟨hnoted, honce⟩ hs rfl rfl
  · have hfailed : e ≠ .abort →
        Reversed 0 (if applies app env s then reversals env else []) s t := by
      intro hne
      obtain ⟨-, hundone, -, hno⟩ := ht.2.resolve_left hne
      rw [if_neg fun happlies => hno (applies_iff.mp happlies)]
      exact hundone.reversed hs
    cases e with
    | abort => trivial
    | _ => exact (hfailed (by simp)).memory hs rfl rfl

theorem successes_cons {txs : List TransactionEnvelope}
    (h : applyTransaction app env s = .ok () t) :
    (successes app (env :: txs) s).flatMap reversals =
      (if applies app env s then reversals env else []) ++
        (successes app txs t).flatMap reversals := by
  have hcons : successes app (env :: txs) s =
      if applies app env s then env :: successes app txs t else successes app txs t := by
    change (match applyTransaction app env s with
      | .ok () t => if applies app env s then env :: successes app txs t else successes app txs t
      | .error _ _ => []) = _
    rw [h]
  rw [hcons]
  by_cases happlies : applies app env s = true
  · rw [if_pos happlies, if_pos happlies, List.flatMap_cons]
  · rw [if_neg happlies, if_neg happlies, List.nil_append]

theorem wp_applyTransactions_reversed {txs : List TransactionEnvelope} (h : Ordered s)
    (hs : Noting 0 s) :
    wp (applyTransactions app txs)
      (fun _ t => Reversed 0 ((successes app txs s).flatMap reversals) s t)
      (fun _ _ => True) s := by
  induction txs generalizing s with
  | nil => exact ⟨.refl hs, .refl _⟩
  | cons env txs ih =>
    have hsplit : applyTransactions app (env :: txs) = (do
      applyTransaction app env
      applyTransactions app txs) := rfl
    rw [hsplit, wp_bind]
    have hordered : wp (applyTransaction app env) (fun _ t => Ordered t) (fun _ _ => True) s := by
      have hone : KeepsOrdered (applyTransactions app [env]) := keepsOrdered_applyTransactions [env]
      simpa [applyTransactions] using hone s h
    refine wp_mono (wp_and_eq (wp_and (wp_applyTransaction_reversed h hs) hordered))
      (fun _ t ht => ?_) fun _ _ _ => trivial
    obtain ⟨⟨hreversed, ht⟩, happly⟩ := ht
    refine wp_mono (ih ht (hreversed.noted.noting hs)) (fun _ u hu => ?_) fun _ _ _ => trivial
    rw [successes_cons happly]
    exact hreversed.trans hu

/-- What stores another row. -/
theorem wp_stored_reversed {c : Custody} {kind : StoreKind} {k : LedgerKey} {R : α → Prop}
    {x : LedgerM α} {e : ℕ} (hx : ∀ s, WpStored kind d k s x) (hk : ∀ rID, k ≠ .reversedPayment rID)
    (htidy : KeepsTidy x) (hcustody : KeepsCustody c.unmarked x R) (hc : InCustody c s)
    (hs : Noting e s) :
    wp x (fun _ t => Reversed e [] s t ∧ InCustody c.unmarked t) (fun _ _ => True) s := by
  refine wp_mono (wp_and (keepsNoted_of_stored hx hk htidy hcustody s hc hs)
    (hcustody s hc.unmarked)) (fun _ t ht => ?_) fun _ _ _ => trivial
  obtain ⟨hnoted, hkept, -⟩ := ht
  exact ⟨⟨hnoted, .of_iff hkept.marks.iff⟩, hkept.custody⟩

/-- Fees mark nothing. -/
theorem wp_processFeeSeqNum_reversed (hc : Contained anyCustody s) (hs : Noting d s) :
    wp (processFeeSeqNum env d) (fun _ t => Reversed d [] s t) (fun _ _ => True) s := by
  unfold processFeeSeqNum
  rw [wp_bind]
  refine wp_mono (wp_and (OnlyLoads.resetSignatureTracker (d := d) s)
    (keepsContained_resetSignatureTracker s hc)) (fun _ s₁ hs₁ => ?_) fun _ _ _ => trivial
  obtain ⟨hreset, hc₁, -⟩ := hs₁
  rw [wp_bind]
  refine wp_mono (wp_and (OnlyLoads.loadSigningAccount s₁)
    (keepsContained_loadSigningAccount s₁ hc₁)) (fun o t ht => ?_) fun _ _ _ => trivial
  obtain ⟨hload, hct, hholds⟩ := ht
  have hread : Reversed d [] s t := .of_loaded hs (hreset.trans hload).loaded
  cases o with
  | none => trivial
  | some account =>
    dsimp only
    split_ifs
    · trivial
    · obtain ⟨source, hin⟩ := hct.anyone
      have hholds : (anyCustody.anyone source).unmarked.Holds { account with mAccountEntry :=
          { account.mAccountEntry with seqNum := env.tx.seqNum } } := hholds account rfl
      rw [wp_bind]
      refine wp_mono (wp_stored_reversed (fun _ => AccountFrame.wp_storeChange) nofun
        (.account_storeChange _) (keepsCustody_storeChange hholds) hin
        (hread.noted.noting hs)) (fun _ u hu => ?_) fun _ _ _ => trivial
      exact (hread.trans hu.1).memory hs rfl rfl

theorem wp_processFeesSeqNums_reversed {txs : List TransactionEnvelope} (h : Ordered s)
    (hs : Noting 0 s) :
    wp (processFeesSeqNums txs) (fun _ t => Reversed 0 [] s t) (fun _ _ => True) s := by
  rw [processFeesSeqNums, wp_sqlTransaction]
  induction txs generalizing s with
  | nil => exact ⟨.refl hs, .refl _⟩
  | cons env txs ih =>
    have hsplit : ((env :: txs).forM fun env => nested 0 (processFeeSeqNum env 1)) = (do
      nested 0 (processFeeSeqNum env 1)
      txs.forM fun env => nested 0 (processFeeSeqNum env 1)) := rfl
    have hordered : KeepsOrdered (nested 0 (processFeeSeqNum env 1)) :=
      .of_keepsOrder keepsOrder_processFeeSeqNum.nested keepsContained_processFeeSeqNum.nested
    have hopened : Contained anyCustody (withDelta 0 s) :=
      h.contained.of_eq rfl (fun _ hp => hp) rfl rfl
    rw [hsplit, wp_bind]
    refine wp_mono (wp_and (wp_nested_reversed (P := fun _ db => MarksOnce [] s.db db) hs
      (wp_mono (wp_processFeeSeqNum_reversed hopened hs.opened) (fun _ _ ht => ⟨ht.noted, ht.once⟩)
        fun _ _ h => h)) (hordered s h)) (fun _ t ht => ?_) fun _ _ _ => trivial
    obtain ⟨⟨hnoted, honce⟩, ht⟩ := ht
    have hreversed : Reversed 0 [] s t := ⟨hnoted, honce⟩
    exact wp_mono (ih ht (hnoted.noting hs)) (fun _ _ hu => hreversed.trans hu) fun _ _ h => h

/-- Between ledgers. -/
structure AtRest (s : LedgerState) : Prop where
  ordered : Ordered s
  lines : KeyedLines s

/-- The state in which a ledger is closed, with a delta of its own. -/
def started (data : LedgerCloseData) (s : LedgerState) : LedgerState :=
  let header := { s.mCurrentLedger with closeTime := data.closeTime }
  { s with
    mCurrentLedger := header
    deltas := Function.update s.deltas 0 (.ofHeader header)
    mSigningAccount := none
    mSourceAccount := none }

theorem AtRest.started (h : AtRest s) (data : LedgerCloseData) :
    Ordered (started data s) ∧ Noting 0 (started data s) := by
  have hdelta : ∀ j ≤ 0, (Transactions.started data s).deltas j =
      .ofHeader { s.mCurrentLedger with closeTime := data.closeTime } := by
    intro j hj
    rw [Nat.le_zero.mp hj]
    exact Function.update_self (0 : ℕ) _ s.deltas
  refine ⟨⟨h.ordered.contained.newFrames rfl (fun _ hp => hp) rfl rfl, h.ordered.coherent⟩,
    ⟨h.lines.of_eq rfl, fun j hj => ?_⟩, fun j hj rID => ?_⟩
  · rw [hdelta j hj]
    exact .ofHeader _ _
  · rw [hdelta j hj]
    exact .ofHeader _ _

/-- What comes before the transactions of a ledger, and some of them. -/
theorem wp_beforeTransaction {data : LedgerCloseData} {txs : List TransactionEnvelope}
    {Q : Unit → LedgerState → Prop} :
    wp (beforeTransaction app data txs) Q (fun _ _ => True) s ↔
      wp (processFeesSeqNums data.txs)
        (fun _ t => wp (applyTransactions app txs) Q (fun _ _ => True) t) (fun _ _ => True)
        (started data s) := by
  simp only [beforeTransaction, wp_bind, wp_modify]
  rfl

theorem wp_processFeesSeqNums_started {data : LedgerCloseData} (h : AtRest s) :
    wp (processFeesSeqNums data.txs) (fun _ t => Ordered t ∧ Reversed 0 [] (started data s) t)
      (fun _ _ => True) (started data s) := by
  obtain ⟨hordered, hnoting⟩ := h.started data
  exact wp_mono (wp_and (keepsOrdered_processFeesSeqNums data.txs _ hordered)
    (wp_processFeesSeqNums_reversed hordered hnoting)) (fun _ _ ht => ht) fun _ _ _ => trivial

/-- **Before any transaction** of a ledger. -/
theorem wp_beforeTransaction_noting {data : LedgerCloseData} {txs : List TransactionEnvelope}
    (h : AtRest s) :
    wp (beforeTransaction app data txs) (fun _ t => Ordered t ∧ Noting 0 t)
      (fun _ _ => True) s := by
  have hnoting := (h.started data).2
  rw [wp_beforeTransaction]
  refine wp_mono (wp_processFeesSeqNums_started h) (fun _ t ht => ?_) fun _ _ _ => trivial
  obtain ⟨ht, hfees⟩ := ht
  have hnoting' := hfees.noted.noting hnoting
  refine wp_mono (wp_and (keepsOrdered_applyTransactions txs t ht)
    (wp_applyTransactions_reversed ht hnoting')) (fun _ u hu => ?_) fun _ _ _ => trivial
  exact ⟨hu.1, hu.2.noted.noting hnoting'⟩

/-- What a ledger leaves: its delta has the payments that were marked, and they are new. -/
structure Closed (ids : List ℤ) (s t : LedgerState) : Prop where
  once : MarksOnce ids s.db t.db
  tidy : Tidy 0 t
  onlyNew : ∀ rID, (t.deltas 0).OnlyNew (.reversedPayment rID)
  new : ∀ rID, .reversedPayment rID ∈ (t.deltas 0).mNew ↔ rID ∈ ids

/-- From a delta that has nothing in it. -/
theorem Reversed.closed {ids : List ℤ} (h : Reversed 0 ids s t)
    (hempty : ∀ rID, .reversedPayment rID ∉ (s.deltas 0).mNew) : Closed ids s t := by
  refine ⟨h.once, h.noted.tidy, h.noted.onlyNew, fun rID => ?_⟩
  have hfresh := h.once.fresh rID
  rw [h.noted.new, h.once.marks]
  have hnot := hempty rID
  tauto

theorem Closed.of_eq {ids : List ℤ} (h : Closed ids s t) (hdb : u.db = t.db)
    (hdelta : ∃ header, u.deltas 0 = { t.deltas 0 with mCurrentHeader := header }) :
    Closed ids s u := by
  obtain ⟨header, hdelta⟩ := hdelta
  have htidy : (u.deltas 0).Tidy := by
    rw [hdelta]
    exact (h.tidy.deltas 0 le_rfl).of_same (fun hwf => ⟨hwf.new, hwf.mod, hwf.disjoint⟩)
      fun k => .refl k (t.deltas 0)
  refine ⟨hdb ▸ h.once, ⟨h.tidy.lines.of_eq (by rw [hdb]), fun j hj => ?_⟩, fun rID => ?_,
    fun rID => ?_⟩
  · rw [Nat.le_zero.mp hj]
    exact htidy
  · rw [hdelta]
    exact h.onlyNew rID
  · rw [hdelta]
    exact h.new rID

/-- The transactions of a ledger that are applied with success. -/
def succeeded (app : Application) (data : LedgerCloseData) (s : LedgerState) :
    List TransactionEnvelope :=
  match beforeTransaction app data [] s with
  | .ok () t => successes app data.txs t
  | .error _ _ => []

/-- **A ledger** marks what its successful transactions reverse. -/
theorem wp_closeLedger_reversed {data : LedgerCloseData} (h : AtRest s) :
    wp (closeLedger app data)
      (fun _ t => Closed ((succeeded app data s).flatMap reversals) s t ∧ AtRest t)
      (fun _ _ => True) s := by
  have hnoting := (h.started data).2
  have hempty : ∀ rID, .reversedPayment rID ∉ ((started data s).deltas 0).mNew := by
    intro rID
    rw [show (started data s).deltas 0 = .ofHeader _ from Function.update_self (0 : ℕ) _ s.deltas]
    exact Std.ExtTreeMap.not_mem_empty
  have hclosed : wp (closeLedger app data)
      (fun _ t => Closed ((succeeded app data s).flatMap reversals) s t) (fun _ _ => True) s := by
    rw [closeLedger_eq data (List.nil_append data.txs).symm, wp_sqlTransaction, wp_bind]
    have hstarted : wp (beforeTransaction app data [])
        (fun _ t => Ordered t ∧ Reversed 0 [] (started data s) t) (fun _ _ => True) s :=
      wp_beforeTransaction.mpr (wp_processFeesSeqNums_started h)
    refine wp_mono (wp_and_eq hstarted) (fun _ t ht => ?_) fun _ _ _ => trivial
    obtain ⟨⟨hordered, hfees⟩, hbefore⟩ := ht
    rw [wp_bind]
    refine wp_mono (wp_applyTransactions_reversed hordered (hfees.noted.noting hnoting))
      (fun _ u hu => ?_) fun _ _ _ => trivial
    have hreversed := hfees.trans hu
    rw [List.nil_append] at hreversed
    have hclosed := hreversed.closed hempty
    simp only [getHeader, setHeader, commitLedger, wp_bind, wp_get, wp_pure, wp_updateDelta, wp_ite,
      wp_throw, wp_set]
    refine ⟨fun δ hδ => ⟨fun _ => trivial, fun _ => ?_⟩, fun _ => trivial⟩
    obtain rfl := Option.some.inj hδ
    have hids : succeeded app data s = successes app data.txs t := by rw [succeeded, hbefore]
    rw [hids]
    exact Closed.of_eq ⟨hclosed.once, hclosed.tidy, hclosed.onlyNew, hclosed.new⟩ rfl
      ⟨_, Function.update_self (0 : ℕ) _ u.deltas⟩
  refine wp_mono (wp_and hclosed (keepsOrdered_closeLedger data s h.ordered)) (fun _ t ht => ?_)
    fun _ _ _ => trivial
  exact ⟨ht.1, ht.2, ht.1.tidy.lines⟩

/-- **The first ledger** has no reversed payments. -/
theorem wp_startNewLedger_reversed :
    wp (startNewLedger app) (fun _ t => Closed [] {} t ∧ AtRest t) (fun _ _ => True) {} := by
  have hstart : wp (startNewLedger app) (fun _ t => Ordered t) (fun _ _ => True) {} := by
    refine wp_mono (wp_startNewLedger (c := anyCustody) trivial (fun _ => trivial)
      fun _ _ _ _ _ => trivial) (fun _ t ht => ⟨ht.1, fun k v hmem => ?_⟩) fun _ _ _ => trivial
    exact absurd hmem (ht.2 _)
  have hclosed : wp (startNewLedger app) (fun _ t => Closed [] {} t) (fun _ _ => True) {} := by
    have hadd : ∀ (id : AccountID) (accountType : AccountType) (s : LedgerState),
        InCustody anyCustody.unmarked s → Noting 0 s →
        wp ((newAccount id accountType).storeAdd 0)
          (fun _ t => Reversed 0 [] s t ∧ InCustody anyCustody.unmarked t) (fun _ _ => True) s :=
      fun id accountType s hc hs => wp_stored_reversed (c := anyCustody.unmarked)
        (fun _ => AccountFrame.wp_storeAdd) nofun (.account_storeAdd _)
        (keepsCustody_storeAdd trivial rfl) hc hs
    let header : LedgerHeader := { maxTxSetSize := 100, ledgerSeq := 1 }
    let s₀ : LedgerState := { ({} : LedgerState) with
      mCurrentLedger := header
      deltas := Function.update ({} : LedgerState).deltas 0 (.ofHeader header) }
    have hdelta : ∀ j ≤ 0, s₀.deltas j = .ofHeader header := by
      intro j hj
      rw [Nat.le_zero.mp hj]
      exact Function.update_self (0 : ℕ) _ ({} : LedgerState).deltas
    have hcustody : InCustody anyCustody.unmarked s₀ :=
      ⟨fun id row hrow => by simp [s₀] at hrow, fun _ _ _ _ _ => trivial,
        fun _ _ _ hmem => absurd hmem List.not_mem_nil, fun f hf => by simp [s₀] at hf⟩
    have hnoting : Noting 0 s₀ := by
      refine ⟨⟨fun id asset row hrow => by simp [s₀] at hrow, fun j hj => ?_⟩, fun j hj rID => ?_⟩
      · rw [hdelta j hj]
        exact .ofHeader _ _
      · rw [hdelta j hj]
        exact .ofHeader _ _
    have hempty : ∀ rID, .reversedPayment rID ∉ (s₀.deltas 0).mNew := by
      intro rID
      rw [hdelta 0 le_rfl]
      exact Std.ExtTreeMap.not_mem_empty
    have hcommit : ∀ t, Reversed 0 [] s₀ t →
        wp commitLedger (fun _ u => Closed [] {} u) (fun _ _ => True) t := by
      intro t ht
      have hclosed := ht.closed hempty
      simp only [commitLedger, wp_bind, wp_get, wp_ite, wp_throw, wp_set]
      exact ⟨fun _ => trivial, fun _ => Closed.of_eq
        ⟨hclosed.once, hclosed.tidy, hclosed.onlyNew, hclosed.new⟩ rfl ⟨_, rfl⟩⟩
    rw [startNewLedger_eq]
    simp only [wp_bind, wp_modify, wp_runIf]
    refine wp_mono (hadd _ _ s₀ hcustody hnoting) (fun _ t ht => ?_) fun _ _ _ => trivial
    obtain ⟨hbank, ht⟩ := ht
    refine ⟨fun _ => ?_, fun _ => hcommit t hbank⟩
    refine wp_mono (hadd _ _ t ht (hbank.noted.noting hnoting)) (fun _ u hu => ?_)
      fun _ _ _ => trivial
    exact hcommit u (hbank.trans hu.1)
  refine wp_mono (wp_and hclosed hstart) (fun _ t ht => ?_) fun _ _ _ => trivial
  exact ⟨ht.1, ht.2, ht.1.tidy.lines⟩

end SmartCore.Transactions
