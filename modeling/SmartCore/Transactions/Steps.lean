import SmartCore.Ledger.Rows
import SmartCore.Transactions.AllOrNothing

/-!
# Transactions that succeed

A transaction that succeeds has passed its checks, and none of its operations has failed. What its
operations did is what each of them did in the state that the one before it left
(`applyOperations_induct`).
-/

namespace SmartCore.Transactions

open SmartCore.Ledger TransactionFrame OperationFrame

variable {app : Application} {env : TransactionEnvelope} {d : ℕ} {op : Operation}
  {fee : Option OperationFee} {s s' s₁ t u v : LedgerState}

/-! ## One operation -/

/-- A merge is the operation that is not checked for signatures. -/
def IsMerge (op : Operation) : Prop := ∃ destination, op.body = .ACCOUNT_MERGE destination

theorem ok_of_nested {α : Type} {x : LedgerM α} {a : α} (h : nested d x t = .ok a u) :
    ∃ u', (openDelta d >>= fun _ => x) t = .ok a u' ∧ commit d u' = .ok () u := by
  obtain ⟨_, t₁, hopen, h⟩ := bind_eq_ok.mp h
  have hbody := ok_of_tryCatch h fun e v v' hv => by
    obtain ⟨_, _, -, hthrow⟩ := bind_eq_ok.mp hv
    cases hthrow
  obtain ⟨a', u', hx, hcommit⟩ := bind_eq_ok.mp hbody
  obtain ⟨_, _, hcommit, hpure⟩ := bind_eq_ok.mp hcommit
  cases hpure
  exact ⟨u', bind_eq_ok.mpr ⟨_, t₁, hopen, hx⟩, hcommit⟩

/-- The account is the one that the transaction has in hand, or is loaded. -/
theorem ok_of_loadAccount {id : AccountID} {o : Option AccountFrame}
    (h : TransactionFrame.loadAccount (some d) id s = .ok o t) :
    Elsewhere s t ∧ ((∃ a, s.mSigningAccount = some a ∧ a.getID = id ∧ o = some a) ∨
      (∀ a, s.mSigningAccount = some a → a.getID ≠ id) ∧
        AccountFrame.loadAccount d id s = .ok o t) := by
  have hload : WpElsewhere (loadFrame (some d) id) := .loadAccount d id
  have hother (hloaded : AccountFrame.loadAccount d id s = .ok o t) : Elsewhere s t :=
    of_wp_ok (Q := fun _ t => Elsewhere s t) (hload s) hloaded
  obtain ⟨_, s', hget, h⟩ := bind_eq_ok.mp h
  cases hget
  cases hsigning : s.mSigningAccount with
  | none =>
    rw [hsigning] at h
    exact ⟨hother h, Or.inr ⟨nofun, h⟩⟩
  | some a =>
    rw [hsigning] at h
    dsimp only at h
    split_ifs at h with hid
    · cases h
      exact ⟨.refl s, Or.inl ⟨a, rfl, hid, rfl⟩⟩
    · refine ⟨hother h, Or.inr ⟨fun b hb => ?_, h⟩⟩
      obtain rfl := Option.some.inj hb
      exact hid

/-- The source of an operation is loaded. -/
theorem ok_of_loadSource {source : AccountFrame}
    (h : loadSource env (some d) op s = .ok source t) :
    ∃ u, TransactionFrame.loadAccount (some d) (getSourceID env op) s = .ok (some source) u ∧
      t = { u with mSourceAccount := some source } := by
  obtain ⟨o, u, hload, h⟩ := bind_eq_ok.mp h
  cases o with
  | none => cases hsource : op.sourceAccount <;> rw [hsource] at h <;> cases h
  | some f =>
    obtain ⟨_, v, hset, h⟩ := bind_eq_ok.mp h
    cases hset
    cases h
    exact ⟨u, hload, rfl⟩

/-- What the check of an operation finds among the signatures. -/
def operationCheck (app : Application) (env : TransactionEnvelope) (op : Operation)
    (source : AccountEntry) : SignatureCheck :=
  checkSignatureLoop app env (getNeededThreshold source op.body) env.signatures 0
    (keyWeights env source) 0

/-- The source is checked, except that of a merge. -/
theorem ok_of_checkSource {source : AccountFrame}
    (h : checkSource app env source op s = .ok () t) :
    (IsMerge op ∧ t = { s with mUsedSigners := [] }) ∨
      ¬ IsMerge op ∧ (operationCheck app env op source.mAccountEntry).enough = true ∧
        t = { s with
          mUsedSigners := (operationCheck app env op source.mAccountEntry).usedSigners
          mUsedSignatures := (operationCheck app env op source.mAccountEntry).usedSignatures.foldl
            (fun used i => used.set i true) s.mUsedSignatures } := by
  by_cases hmerge : IsMerge op
  · obtain ⟨destination, hbody⟩ := hmerge
    rw [checkSource, hbody] at h
    obtain ⟨_, s₁, hset, h⟩ := bind_eq_ok.mp h
    cases hset
    refine Or.inl ⟨⟨destination, hbody⟩, ?_⟩
    unfold runIf at h
    split_ifs at h
    · cases h
    · cases h
      rfl
  · have hcheck : (do
        let r ← checkSignature app env source.mAccountEntry
          (getNeededThreshold source.mAccountEntry op.body)
        modify ({ · with mUsedSigners := r.usedSigners })
        runIf (!r.enough) (throw (.opFailed .opBAD_AUTH)) : LedgerM Unit) s = .ok () t := by
      unfold checkSource at h
      cases hbody : op.body with
      | ACCOUNT_MERGE destination => exact absurd ⟨destination, hbody⟩ hmerge
      | _ =>
        rw [hbody] at h
        exact h
    obtain ⟨r, s₁, hr, hcheck⟩ := bind_eq_ok.mp hcheck
    obtain ⟨_, s₂, hset, hcheck⟩ := bind_eq_ok.mp hcheck
    obtain ⟨_, s₃, hmark, hr⟩ := bind_eq_ok.mp hr
    cases hmark
    cases hr
    cases hset
    refine Or.inr ⟨hmerge, ?_⟩
    unfold runIf at hcheck
    split_ifs at hcheck with henough
    · cases hcheck
    · cases hcheck
      exact ⟨by simpa [operationCheck] using henough, rfl⟩

/-- An operation that succeeds has loaded its source and passed its checks. -/
theorem ok_of_applyOperation (h : OperationFrame.apply app env d op fee s = .ok true u) :
    ∃ source s₁ s₂ s₃ r t, loadSource env (some d) op s = .ok source s₁ ∧
      checkSource app env source op s₁ = .ok () s₂ ∧
      OperationFrame.doCheckValid app env op fee s₂ = .ok () s₃ ∧
      OperationFrame.doApply app env d op fee s₃ = .ok r t ∧
      u = { t with
        mSigningAccount := t.mSigningAccount.bind fun a =>
          if a.getID = getSourceID env op then t.mSourceAccount else some a
        results := t.results ++ [.opINNER r] } := by
  obtain ⟨⟨succeeded, result⟩, t₁, hr, h⟩ := bind_eq_ok.mp h
  obtain ⟨_, t₂, hsync, h⟩ := bind_eq_ok.mp h
  obtain ⟨_, t₃, hresults, h⟩ := bind_eq_ok.mp h
  cases hsync
  cases hresults
  cases h
  have hbody := ok_of_tryCatch hr fun e v v' hv => by
    cases e <;> cases hv
  obtain ⟨_, s₃, hvalid, happly⟩ := bind_eq_ok.mp hbody
  obtain ⟨r, t, happly, hpure⟩ := bind_eq_ok.mp happly
  cases hpure
  obtain ⟨source, s₁, hload, hvalid⟩ := bind_eq_ok.mp hvalid
  obtain ⟨_, s₂, hcheck, hvalid⟩ := bind_eq_ok.mp hvalid
  obtain ⟨_, s₂', hskip, hvalid⟩ := bind_eq_ok.mp hvalid
  obtain rfl : s₂ = s₂' := by
    cases hskip
    rfl
  exact ⟨source, s₁, s₂, s₃, r, _, hload, hcheck, hvalid, happly, rfl⟩

/-- What an operation does once its source has been checked. -/
theorem kept_of_programs {c : Custody} {r : OperationResultTr} (hcustody : InCustody c s)
    (hadmits : Admits c op) (hvalid : OperationFrame.doCheckValid app env op fee s = .ok () u)
    (happly : OperationFrame.doApply app env d op fee u = .ok r t) : Kept c s t := by
  have hvalids : KeepsCustody c (OperationFrame.doCheckValid app env op fee) fun _ => True :=
    (Program.doCheckValid (m := .inside 0)).keepsCustody
  have happlies : KeepsCustody c (OperationFrame.doApply app env d op fee) fun _ => True :=
    (Program.doApply hadmits).keepsCustody
  have hkept := (of_wp_ok (hvalids s hcustody) hvalid).1
  exact hkept.trans (of_wp_ok (happlies u hkept.custody) happly).1

/-- From its source on. -/
theorem kept_of_checked {c : Custody} {source : AccountFrame} {s₂ s₃ : LedgerState}
    {r : OperationResultTr} (hc : Contained c s)
    (hadmits : Passes app env op → Admits (c.of env op) op)
    (hload : loadSource env (some d) op s = .ok source s₁)
    (hcheck : checkSource app env source op s₁ = .ok () s₂)
    (hvalid : OperationFrame.doCheckValid app env op fee s₂ = .ok () s₃)
    (happly : OperationFrame.doApply app env d op fee s₃ = .ok r t) :
    Contained c s₂ ∧ Kept (c.of env op) s₂ t := by
  obtain ⟨hc₁, hid, hsource⟩ := of_wp_ok (wp_loadSource hc) hload
  obtain ⟨hc₂, hcustody⟩ := of_wp_ok (wp_checkSource hc₁ hid hsource) hcheck
  exact ⟨hc₂, kept_of_programs hcustody (hadmits ⟨fee, s₂, s₃, hvalid⟩) hvalid happly⟩

/-- An operation takes a transaction from `t` to `t'`. It leaves `u`; its changes are noted in the
meta, and its delta is committed. -/
structure OperationStep (app : Application) (env : TransactionEnvelope) (d : ℕ)
    (o : Operation × Option OperationFee) (txRes : Bool) (t u t' : LedgerState) : Prop where
  apply : OperationFrame.apply app env (d + 1) o.1 o.2 (withDelta d t) = .ok txRes u
  after : ∃ deltas, t' = { u with tm := u.tm ++ [(u.deltas (d + 1)).getChanges], deltas }

theorem operationStep_of_applyWithMeta {o : Operation × Option OperationFee} {txRes : Bool}
    (h : applyWithMeta app env d o t = .ok txRes v) :
    ∃ u, OperationStep app env d o txRes t u v := by
  obtain ⟨u', h, hcommit⟩ := ok_of_nested h
  obtain ⟨_, t₁, hopen, h⟩ := bind_eq_ok.mp h
  obtain ⟨txRes, u, happly, h⟩ := bind_eq_ok.mp h
  obtain ⟨_, t₃, hmeta, h⟩ := bind_eq_ok.mp h
  cases hopen
  cases hmeta
  cases h
  obtain ⟨δ, rfl, -⟩ := of_wp_ok (wp_commit_delta d _) hcommit
  exact ⟨u, happly, _, rfl⟩

/-- How an operation that succeeds is applied after `t`: the source is loaded and checked, the operation
starts in `t₂` and ends in `v`. -/
structure Ran (app : Application) (env : TransactionEnvelope) (d : ℕ)
    (o : Operation × Option OperationFee) (t : LedgerState) (source : AccountFrame)
    (t₂ v u : LedgerState) : Prop where
  load : ∃ t₁, loadSource env (some (d + 1)) o.1 (withDelta d t) = .ok source t₁
  id : source.getID = getSourceID env o.1
  /-- it is the account in hand, or loaded from its row -/
  loaded : t.mSigningAccount = some source ∨
    (∀ a, t.mSigningAccount = some a → a.getID ≠ getSourceID env o.1) ∧
      ∃ (row : Row AccountEntry) (b : Bool), t.db.accounts[getSourceID env o.1]? = some row ∧
        source = .ofRow row b
  check : IsMerge o.1 ∧ t₂.mUsedSigners = [] ∧ t₂.mUsedSignatures = t.mUsedSignatures ∨
    ¬ IsMerge o.1 ∧ (operationCheck app env o.1 source.mAccountEntry).enough = true ∧
      t₂.mUsedSigners = (operationCheck app env o.1 source.mAccountEntry).usedSigners ∧
        t₂.mUsedSignatures =
          (operationCheck app env o.1 source.mAccountEntry).usedSignatures.foldl
            (fun used i => used.set i true) t.mUsedSignatures
  contained : Contained anyCustody t₂
  coherent : Coherent t₂
  db : t₂.db = t.db
  mSourceAccount : t₂.mSourceAccount = some source
  apply : ∃ t₃ r, OperationFrame.doCheckValid app env o.1 o.2 t₂ = .ok () t₃ ∧
    OperationFrame.doApply app env (d + 1) o.1 o.2 t₃ = .ok r v
  kept : Kept (anyCustody.of env o.1) t₂ v
  mSigningAccount : u.mSigningAccount = t.mSigningAccount.bind fun a =>
    if a.getID = getSourceID env o.1 then v.mSourceAccount else some a
  rest : u.db = v.db ∧ u.mUsedSignatures = v.mUsedSignatures ∧ u.mSourceAccount = v.mSourceAccount

theorem OperationStep.ran {o : Operation × Option OperationFee} {t' : LedgerState}
    (h : OperationStep app env d o true t u t') (hc : Contained anyCustody t)
    (hin : Inside [] d t) : ∃ source t₂ v, Ran app env d o t source t₂ v u := by
  obtain ⟨source, t₁, t₂, t₃, r, v, hload, hcheck, hvalid, happly, rfl⟩ :=
    ok_of_applyOperation h.apply
  have hopened : Contained anyCustody (withDelta d t) := hc.of_eq rfl (fun _ hp => hp) rfl rfl
  have hstart : Coherent (withDelta d t) := hin.coherent
  obtain ⟨hc₂, hkept⟩ := kept_of_checked hopened (fun _ => admits_any env o.1) hload hcheck hvalid
    happly
  have hid := (of_wp_ok (wp_loadSource hopened) hload).2.1
  have hloads : OnlyLoads (d + 1) (do
      let source ← loadSource env (some (d + 1)) o.1
      checkSource app env source o.1) := OnlyLoads.loadSource.bind fun source => .checkSource source
  have hchecked : Checked (d + 1) (withDelta d t) t₂ :=
    of_wp_ok (Q := fun _ t₂ => Checked (d + 1) (withDelta d t) t₂) (hloads _)
      (bind_eq_ok.mpr ⟨source, t₁, hload, hcheck⟩)
  obtain ⟨w, hw, ht₁⟩ := ok_of_loadSource hload
  obtain ⟨helsewhere, hfrom⟩ := ok_of_loadAccount hw
  have hsigning : t₁.mSigningAccount = t.mSigningAccount ∧
      t₁.mUsedSignatures = t.mUsedSignatures ∧ t₁.mSourceAccount = some source := by
    rw [ht₁]
    exact ⟨helsewhere.memory.mSigningAccount, helsewhere.memory.mUsedSignatures, rfl⟩
  have hsource : t.mSigningAccount = some source ∨
      (∀ a, t.mSigningAccount = some a → a.getID ≠ getSourceID env o.1) ∧
        ∃ (row : Row AccountEntry) (b : Bool), t.db.accounts[getSourceID env o.1]? = some row ∧
          source = .ofRow row b := by
    obtain ⟨a, ha, -, heq⟩ | ⟨hother, hloaded⟩ := hfrom
    · exact Or.inl (ha.trans heq.symm)
    · obtain ⟨⟨b, hrow⟩, -⟩ := of_wp_ok (AccountFrame.wp_loadAccount_row hstart _ _) hloaded
      obtain ⟨row, hrow, heq⟩ := Option.map_eq_some_iff.mp hrow.symm
      exact Or.inr ⟨hother, row, b, hrow, heq.symm⟩
  have hmemory : t₂.mSourceAccount = t₁.mSourceAccount ∧
      t₂.mSigningAccount = t₁.mSigningAccount := by
    rcases ok_of_checkSource hcheck with ⟨-, rfl⟩ | ⟨-, -, rfl⟩ <;> exact ⟨rfl, rfl⟩
  refine ⟨source, t₂, v, ⟨t₁, hload⟩, hid, hsource, ?_, hc₂, hstart.loaded hchecked.loaded, hchecked.loaded.db,
    hmemory.1.trans hsigning.2.2, ⟨t₃, r, hvalid, happly⟩, hkept, ?_, rfl, rfl, rfl⟩
  · rcases ok_of_checkSource hcheck with ⟨hmerge, rfl⟩ | ⟨hmerge, henough, rfl⟩
    · exact Or.inl ⟨hmerge, rfl, hsigning.2.1⟩
    · refine Or.inr ⟨hmerge, henough, rfl, ?_⟩
      dsimp only
      rw [hsigning.2.1]
  · show v.mSigningAccount.bind _ = _
    rw [hkept.memory.mSigningAccount, hmemory.2, hsigning.1]

/-! ## All operations -/

section Operations

variable {o : Operation × Option OperationFee} {ops pre post : List (Operation × Option OperationFee)}
  {b : Bool}

theorem applyOperations_cons (h : applyOperations app env d (o :: ops) s = .ok b s') :
    ∃ txRes b' t, applyWithMeta app env d o s = .ok txRes t ∧
      applyOperations app env d ops t = .ok b' s' ∧ b = (!txRes || b') := by
  obtain ⟨txRes, t, hop, h⟩ := bind_eq_ok.mp h
  obtain ⟨b', t', hops, h⟩ := bind_eq_ok.mp h
  cases h
  exact ⟨txRes, b', t, hop, hops, rfl⟩

theorem applyOperations_append (h : applyOperations app env d (pre ++ post) s = .ok b s') :
    ∃ b₁ b₂ t, applyOperations app env d pre s = .ok b₁ t ∧
      applyOperations app env d post t = .ok b₂ s' ∧ b = (b₁ || b₂) := by
  induction pre generalizing s b with
  | nil => exact ⟨false, b, s, rfl, h, (Bool.false_or b).symm⟩
  | cons op pre ih =>
    obtain ⟨txRes, b', t, hop, hrest, rfl⟩ := applyOperations_cons h
    obtain ⟨b₁, b₂, t', hpre, hpost, rfl⟩ := ih hrest
    refine ⟨!txRes || b₁, b₂, t', ?_, hpost, (Bool.or_assoc _ _ _).symm⟩
    exact bind_eq_ok.mpr ⟨txRes, t, hop, bind_eq_ok.mpr ⟨b₁, t', hpre, rfl⟩⟩

/-- If none fails, each operation takes its step after those before it. -/
theorem operationStep_of_append
    (h : applyOperations app env d (pre ++ o :: post) s = .ok false s') :
    ∃ t u t', applyOperations app env d pre s = .ok false t ∧
      OperationStep app env d o true t u t' := by
  obtain ⟨b₁, b₂, t, hpre, hpost, hb⟩ := applyOperations_append h
  obtain ⟨rfl, rfl⟩ := Bool.or_eq_false_iff.mp hb.symm
  obtain ⟨txRes, b', t', hop, -, hb⟩ := applyOperations_cons hpost
  obtain ⟨hres, -⟩ := Bool.or_eq_false_iff.mp hb.symm
  obtain rfl : txRes = true := by simpa using hres
  obtain ⟨u, hu⟩ := operationStep_of_applyWithMeta hop
  exact ⟨t, u, t', hpre, hu⟩

/-- **What each operation keeps, all of them keep.** -/
theorem applyOperations_induct
    {P : Bool → List (Operation × Option OperationFee) → LedgerState → Prop}
    (hstart : P false [] s)
    (hstep : ∀ pre o b txRes t u t', applyOperations app env d pre s = .ok b t →
      applyOperations app env d (pre ++ [o]) s = .ok (b || !txRes) t' →
        OperationStep app env d o txRes t u t' → P b pre t → P (b || !txRes) (pre ++ [o]) t')
    (h : applyOperations app env d ops s = .ok b s') : P b ops s' := by
  induction ops using List.reverseRecOn generalizing b s' with
  | nil =>
    cases h
    exact hstart
  | append_singleton pre o ih =>
    obtain ⟨b₁, b₂, t, hpre, hlast, rfl⟩ := applyOperations_append h
    obtain ⟨txRes, b', t', hop, hnil, rfl⟩ := applyOperations_cons hlast
    cases hnil
    rw [Bool.or_false] at h ⊢
    obtain ⟨u, hu⟩ := operationStep_of_applyWithMeta hop
    exact hstep pre o b₁ txRes t u s' hpre h hu (ih hpre)

/-- And so it is for those that do not fail. -/
theorem applyOperations_induct_ok {P : List (Operation × Option OperationFee) → LedgerState → Prop}
    (hstart : P [] s)
    (hstep : ∀ pre o t u t', applyOperations app env d pre s = .ok false t →
      applyOperations app env d (pre ++ [o]) s = .ok false t' →
        OperationStep app env d o true t u t' → P pre t → P (pre ++ [o]) t')
    (h : applyOperations app env d ops s = .ok false s') : P ops s' := by
  refine applyOperations_induct (P := fun b ops t => b = false → P ops t) (fun _ => hstart)
    (fun pre o b txRes t u t' hpre hlast hop ih hb => ?_) h rfl
  rw [hb] at hlast
  obtain ⟨rfl, hres⟩ := Bool.or_eq_false_iff.mp hb
  obtain rfl : txRes = true := by simpa using hres
  exact hstep pre o t u t' hpre hlast hop (ih rfl)

/-- Where the operations stop, one of them has stopped. -/
theorem wp_applyOperations_stopped (ops : List (Operation × Option OperationFee)) (s : LedgerState) :
    wp (applyOperations app env d ops) (fun _ _ => True)
      (fun e v => ∃ pre o post b t, ops = pre ++ o :: post ∧
        applyOperations app env d pre s = .ok b t ∧ applyWithMeta app env d o t = .error e v) s := by
  induction ops generalizing s with
  | nil => exact trivial
  | cons o ops ih =>
    have hsplit : applyOperations app env d (o :: ops) = (do
      let txRes ← applyWithMeta app env d o
      let errorEncountered ← applyOperations app env d ops
      return !txRes || errorEncountered) := rfl
    rw [hsplit, wp_bind]
    refine wp_mono (wp_self (applyWithMeta app env d o) s) (fun txRes t hop => ?_) fun e v hop => ?_
    · rw [wp_bind]
      refine wp_mono (ih t) (fun _ _ _ => trivial) fun e v hv => ?_
      obtain ⟨pre, o', post, b, t', rfl, hpre, hstop⟩ := hv
      refine ⟨o :: pre, o', post, !txRes || b, t', rfl, ?_, hstop⟩
      exact bind_eq_ok.mpr ⟨txRes, t, hop, bind_eq_ok.mpr ⟨b, t', hpre, rfl⟩⟩
    · exact ⟨[], o, ops, false, s, rfl, rfl, hop⟩

end Operations

/-! ## The transaction -/

/-- A transaction up to its first operation. -/
def startOperations (app : Application) (env : TransactionEnvelope) (d : ℕ) : LedgerM Unit := do
  resetSignatureTracker env
  commonValid app env (some d) 0
  openDelta d

/-- What the check of a transaction finds among the signatures. -/
def transactionCheck (app : Application) (env : TransactionEnvelope) (account : AccountEntry) :
    SignatureCheck :=
  checkSignatureLoop app env account.thresholds.low.val env.signatures 0 (keyWeights env account) 0

/-- What passes a check goes on. -/
theorem ok_of_failTx {α : Type} {p : Prop} [Decidable p] {r : TransactionResult} {a : α}
    {f : Unit → LedgerM α} (h : (failTx p r >>= f) s = .ok a t) : f () s = .ok a t := by
  obtain ⟨_, u, hfail, h⟩ := bind_eq_ok.mp h
  unfold failTx at hfail
  split_ifs at hfail <;> cases hfail
  exact h

/-- The account of a transaction is loaded from the ledger. -/
theorem ok_of_loadSigningAccount {o : Option AccountFrame}
    (h : loadSigningAccount env (some d) s = .ok o t) (hnone : s.mSigningAccount = none) :
    ∃ u, AccountFrame.loadAccount d env.tx.sourceAccount s = .ok o u ∧ Elsewhere s u ∧
      t = { u with mSigningAccount := o } := by
  obtain ⟨o, u, hload, h⟩ := bind_eq_ok.mp h
  obtain ⟨_, v, hset, h⟩ := bind_eq_ok.mp h
  cases hset
  cases h
  obtain ⟨helsewhere, ⟨a, ha, -⟩ | ⟨-, hload⟩⟩ := ok_of_loadAccount hload
  · rw [hnone] at ha
    cases ha
  · exact ⟨u, hload, helsewhere, rfl⟩

/-- Where the operations start, the account of the transaction is in hand and has been checked. -/
theorem ok_of_startOperations (h : startOperations app env d s = .ok () s₁) :
    ∃ account t, (resetSignatureTracker env >>= fun _ => loadSigningAccount env (some d)) s =
        .ok (some account) t ∧
      s₁ = withDelta d { t with
        mUsedSignatures := (transactionCheck app env account.mAccountEntry).usedSignatures.foldl
          (fun used i => used.set i true) t.mUsedSignatures } := by
  obtain ⟨_, t₁, hreset, h⟩ := bind_eq_ok.mp h
  obtain ⟨_, t₂, hvalid, hopen⟩ := bind_eq_ok.mp h
  cases hopen
  obtain ⟨_, _, hget, hheader⟩ := bind_eq_ok.mp hvalid
  cases hget
  have hloaded := ok_of_failTx (ok_of_failTx (ok_of_failTx (ok_of_failTx (ok_of_failTx hheader))))
  obtain ⟨o, t, hload, hchecked⟩ := bind_eq_ok.mp hloaded
  cases o with
  | none => cases hchecked
  | some account =>
    refine ⟨account, t, bind_eq_ok.mpr ⟨_, _, hreset, hload⟩, ?_⟩
    obtain ⟨r, _, hcheck, hauth⟩ := bind_eq_ok.mp (ok_of_failTx hchecked)
    cases hcheck
    obtain ⟨minBalance, _, hbalance, hreserve⟩ := bind_eq_ok.mp (ok_of_failTx hauth)
    cases hbalance
    unfold failTx at hreserve
    split_ifs at hreserve <;> cases hreserve
    rfl

/-- A transaction that succeeds has started its operations, and none of them failed. -/
theorem applyOperations_of_apply (h : TransactionFrame.apply app env d s = .ok true s') :
    ∃ s₁ u, startOperations app env d s = .ok () s₁ ∧
      applyOperations app env (d + 1) (mOperations env) s₁ = .ok false u := by
  have hbody := ok_of_tryCatch h fun e v v' hv => by
    cases e with
    | txFailed r => cases r <;> cases hv
    | opFailed r => cases hv
    | exception what => cases hv
    | abort => cases hv
  obtain ⟨_, t₁, hreset, hbody⟩ := bind_eq_ok.mp hbody
  obtain ⟨_, t₂, hvalid, hbody⟩ := bind_eq_ok.mp hbody
  obtain ⟨_, t₃, hall, -⟩ := bind_eq_ok.mp hbody
  obtain ⟨u', hall, -⟩ := ok_of_nested hall
  obtain ⟨_, s₁, hopen, hall⟩ := bind_eq_ok.mp hall
  obtain ⟨_, v, hget, hall⟩ := bind_eq_ok.mp hall
  obtain rfl : s₁ = v := by
    cases hget
    rfl
  have hops := ok_of_tryCatch hall fun e v v' hv => by
    obtain ⟨_, _, -, hthrow⟩ := bind_eq_ok.mp hv
    cases hthrow
  obtain ⟨errorEncountered, u, hops, hfinal⟩ := bind_eq_ok.mp hops
  have herror : errorEncountered = false := by
    cases herr : errorEncountered with
    | false => rfl
    | true =>
      rw [herr] at hfinal
      cases hfinal
  rw [herror] at hops
  exact ⟨s₁, u, bind_eq_ok.mpr ⟨_, t₁, hreset, bind_eq_ok.mpr ⟨_, t₂, hvalid, hopen⟩⟩, hops⟩

/-- Where a transaction starts its operations, the accounts are where they belong and the cache is in
order. -/
theorem contained_startOperations {c : Custody} (hc : Contained c s) (h : Coherent s)
    (hstart : startOperations app env d s = .ok () s₁) :
    Contained c s₁ ∧ Inside [] (d + 1) s₁ := by
  obtain ⟨_, t₁, hreset, hstart⟩ := bind_eq_ok.mp hstart
  obtain ⟨_, t₂, hvalid, hopen⟩ := bind_eq_ok.mp hstart
  cases hopen
  have hc₁ := (of_wp_ok (keepsContained_resetSignatureTracker s hc) hreset).1
  have hc₂ := (of_wp_ok (keepsContained_commonValid t₁ hc₁) hvalid).1
  have hloads : OnlyLoads d (commonValid app env (some d) 0) := .commonValid
  have hreset : Checked d s t₁ :=
    of_wp_ok (Q := fun _ t => Checked d s t) (OnlyLoads.resetSignatureTracker s) hreset
  have hvalid : Checked d t₁ t₂ := of_wp_ok (Q := fun _ t => Checked d t₁ t) (hloads t₁) hvalid
  have hloaded : Checked d s t₂ := hreset.trans hvalid
  have hinside : Inside [] d t₂ := hloaded.inside ⟨h, nofun⟩
  exact ⟨hc₂.of_eq rfl (fun _ hp => hp) rfl rfl, hinside.opened⟩

/-- And so they are between two operations. -/
theorem inside_applyOperations {ops : List (Operation × Option OperationFee)} {b : Bool}
    (hc : Contained anyCustody s) (h : Inside [] d s)
    (hops : applyOperations app env d ops s = .ok b t) :
    Contained anyCustody t ∧ Inside [] d t := by
  have hadmits : ∀ o ∈ ops, Passes app env o.1 → Admits (anyCustody.of env o.1) o.1 :=
    fun o _ _ => admits_any env o.1
  exact ⟨(of_wp_ok (keepsContained_applyOperations hadmits s hc) hops).1,
    (of_wp_ok (keepsOrder_applyOperations hadmits [] s hc h) hops).1⟩

end SmartCore.Transactions
