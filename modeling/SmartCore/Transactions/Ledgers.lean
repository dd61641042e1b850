import SmartCore.Transactions.Custody
import SmartCore.Transactions.Programs

/-!
# Custody over transactions and ledgers

Programs keep custody of the accounts. So do transactions and ledgers, if every operation that
passes its check is one that the custody admits, because an operation is checked right before it is
applied: then its source has been loaded, and the signers that it used are those of its check.

**Theorem (`keepsContained_applyTransaction`).** Applying a transaction keeps the accounts contained,
also where it fails.
-/

namespace SmartCore.Transactions

open SmartCore.Ledger TransactionFrame OperationFrame LedgerManager

variable {app : Application} {env : TransactionEnvelope} {c : Custody} {s t : LedgerState}
  {α β : Type} {op : Operation} {fee : Option OperationFee} {d : ℕ}

/-! ## Between operations -/

/-- Every account is one that the custody allows, whoever is the source. -/
structure Contained (c : Custody) (s : LedgerState) : Prop where
  rows : ∀ (id : AccountID) (row : Row AccountEntry), s.db.accounts[id]? = some row →
    row.entry.accountID = id ∧ c.HoldsEntry row.entry
  free : ∀ id : AccountID, s.db.accounts[id]? = none → c.Deletable id
  cached : ∀ k lastModified a, (k, some ⟨lastModified, .account a⟩) ∈ s.mEntryCache →
    k = .account a.accountID ∧ c.HoldsEntry a
  signing : ∀ f, s.mSigningAccount = some f → c.Holds f
  source : ∀ f, s.mSourceAccount = some f → c.Holds f

/-- Code that keeps the accounts contained, however it ends. -/
def KeepsContained (c : Custody) (x : LedgerM α) (R : α → Prop) : Prop :=
  ∀ s, Contained c s → wp x (fun a t => Contained c t ∧ R a) (fun _ t => Contained c t) s

/-- The custody with any source. -/
def Custody.anyone (c : Custody) (source : AccountID) : Custody :=
  { c with source, sourceSigners := fun _ => True }

theorem Contained.anyone (h : Contained c s) : ∃ source, InCustody (c.anyone source) s := by
  cases hsource : s.mSourceAccount with
  | none =>
    refine ⟨0, h.rows, h.free, h.cached, fun f hf => ?_⟩
    rw [hsource] at hf
    cases hf
  | some f =>
    refine ⟨f.getID, h.rows, h.free, h.cached, fun f' hf' => ?_⟩
    rw [hsource] at hf'
    obtain rfl := Option.some.inj hf'
    exact ⟨h.source f hsource, rfl, trivial⟩

/-- A program does not touch the account of the transaction. -/
theorem Contained.of_kept {source : AccountID} {sourceSigners : List Signer → Prop}
    (h : Contained c s) (hk : Kept { c with source, sourceSigners } s t) : Contained c t := by
  refine ⟨hk.custody.rows, hk.custody.free, hk.custody.cached, fun f hf => ?_,
    fun f hf => (hk.custody.source f hf).1⟩
  rw [hk.memory.mSigningAccount] at hf
  exact h.signing f hf

/-- Neither the tables, nor the cache, nor the accounts in memory. -/
theorem Contained.of_eq (h : Contained c s) (hdb : t.db.accounts = s.db.accounts)
    (hcache : ∀ p ∈ t.mEntryCache, p ∈ s.mEntryCache)
    (hsigning : t.mSigningAccount = s.mSigningAccount)
    (hsource : t.mSourceAccount = s.mSourceAccount) : Contained c t where
  rows := by
    rw [hdb]
    exact h.rows
  free := by
    rw [hdb]
    exact h.free
  cached k lastModified a hmem := h.cached k lastModified a (hcache _ hmem)
  signing := by
    rw [hsigning]
    exact h.signing
  source := by
    rw [hsource]
    exact h.source

/-- The frames of a transaction have not loaded an account yet. -/
theorem Contained.newFrames (h : Contained c s) (hdb : t.db.accounts = s.db.accounts)
    (hcache : ∀ p ∈ t.mEntryCache, p ∈ s.mEntryCache) (hsigning : t.mSigningAccount = none)
    (hsource : t.mSourceAccount = none) : Contained c t where
  rows := by
    rw [hdb]
    exact h.rows
  free := by
    rw [hdb]
    exact h.free
  cached k lastModified a hmem := h.cached k lastModified a (hcache _ hmem)
  signing f hf := by
    rw [hsigning] at hf
    cases hf
  source f hf := by
    rw [hsource] at hf
    cases hf

namespace KeepsContained

variable {R : α → Prop} {R' : β → Prop} {x : LedgerM α} {f : α → LedgerM β}

theorem pure {a : α} (h : R a) : KeepsContained c (Pure.pure a) R := fun _ hs => ⟨hs, h⟩

theorem throw (e : Exit) : KeepsContained c (throwThe Exit e : LedgerM α) R := fun _ hs => hs

theorem bind (hx : KeepsContained c x R) (hf : ∀ a, R a → KeepsContained c (f a) R') :
    KeepsContained c (x >>= f) R' := by
  intro s h
  rw [wp_bind]
  exact wp_mono (hx s h) (fun a t ht => hf a ht.2 t ht.1) fun _ _ hs => hs

theorem seq (hx : KeepsContained c x R) (hf : ∀ a, KeepsContained c (f a) R') :
    KeepsContained c (x >>= f) R' := hx.bind fun a _ => hf a

theorem trivial (hx : KeepsContained c x R) : KeepsContained c x fun _ => True :=
  fun s h => wp_mono (hx s h) (fun _ _ ht => ⟨ht.1, True.intro⟩) fun _ _ ht => ht

theorem tryCatch (hx : KeepsContained c x R) {handle : Exit → LedgerM α}
    (hh : ∀ e, KeepsContained c (handle e) R) : KeepsContained c (tryCatch x handle) R := by
  intro s h
  rw [wp_tryCatch]
  exact wp_mono (hx s h) (fun _ _ hs => hs) fun e t ht => hh e t ht

theorem get : KeepsContained c (get : LedgerM LedgerState) fun _ => True :=
  fun _ hs => ⟨hs, True.intro⟩

theorem modify {g : LedgerState → LedgerState} (h : ∀ s, Contained c s → Contained c (g s)) :
    KeepsContained c (modify g) fun _ => True := fun s hs => ⟨h s hs, True.intro⟩

/-- What is not about accounts, and then. -/
theorem modify_seq {g : LedgerState → LedgerState} {f : Unit → LedgerM β}
    (hg : ∀ s, Contained c s → Contained c (g s)) (hf : KeepsContained c (f ()) R') :
    KeepsContained c (MonadState.modifyGet (fun s => ((), g s)) >>= f) R' :=
  (modify hg).seq fun _ => hf

theorem ite {p : Prop} [Decidable p] {y : LedgerM α} (hx : p → KeepsContained c x R)
    (hy : ¬ p → KeepsContained c y R) : KeepsContained c (if p then x else y) R := by
  split_ifs with h
  · exact hx h
  · exact hy h

theorem forM {xs : List β} {g : β → LedgerM PUnit}
    (hg : ∀ b ∈ xs, KeepsContained c (g b) fun _ => True) :
    KeepsContained c (xs.forM g) fun _ => True := by
  induction xs with
  | nil => exact .pure True.intro
  | cons b xs ih =>
    exact (hg b List.mem_cons_self).seq fun _ => ih fun b' hb' => hg b' (List.mem_cons_of_mem _ hb')

/-- Code that keeps custody, whoever is the source. -/
theorem of_custody (hx : ∀ source, KeepsCustody (c.anyone source) x R) : KeepsContained c x R := by
  intro s h
  obtain ⟨source, hin⟩ := h.anyone
  exact wp_mono (hx source s hin) (fun a t ht => ⟨h.of_kept ht.1, ht.2⟩) fun _ t ht => h.of_kept ht

theorem nested (hx : KeepsContained c x R) : KeepsContained c (nested d x) R := by
  have hopen : KeepsContained c (openDelta d) fun _ => True :=
    modify fun s h => h.of_eq rfl (fun _ hp => hp) rfl rfl
  have hrollback : KeepsContained c (rollback (d + 1)) fun _ => True :=
    modify fun s h => h.of_eq rfl (fun p hp => (mem_foldl_eraseCached.mp hp).1) rfl rfl
  have hcommit : KeepsContained c (commit d) fun _ => True := of_custody fun _ => .commit
  refine hopen.seq fun _ => tryCatch ?_ fun e => hrollback.seq fun _ => throw e
  exact hx.bind fun a ha => hcommit.seq fun _ => pure ha

/-- The rows are as they were before, if it stops. -/
theorem sqlTransaction (hx : KeepsContained c x R) : KeepsContained c (sqlTransaction x) R := by
  intro s h
  simp only [Ledger.sqlTransaction, wp_bind, wp_get, wp_tryCatch, wp_modify, wp_throw]
  exact wp_mono (hx s h) (fun _ _ hs => hs) fun e t ht =>
    ⟨h.rows, h.free, ht.cached, ht.signing, ht.source⟩

end KeepsContained

/-! ## Accounts of a transaction -/

theorem keepsContained_loadAccount (id : AccountID) :
    KeepsContained c (TransactionFrame.loadAccount (some d) id)
      fun o => ∀ f ∈ o, c.Holds f ∧ f.getID = id := by
  have hload : KeepsContained c (loadFrame (some d) id)
      fun o => ∀ f ∈ o, c.Holds f ∧ f.getID = id := .of_custody fun _ => keepsCustody_loadAccount id
  intro s h
  rw [TransactionFrame.loadAccount, wp_bind, wp_get]
  cases hsigning : s.mSigningAccount with
  | none => exact hload s h
  | some a =>
    simp only [wp_ite, wp_pure]
    refine ⟨fun hid => ⟨h, fun f hf => ?_⟩, fun _ => hload s h⟩
    obtain rfl := Option.some.inj hf
    exact ⟨h.signing a hsigning, hid⟩

theorem keepsContained_loadSigningAccount :
    KeepsContained c (loadSigningAccount env (some d)) fun o => ∀ f ∈ o, c.Holds f := by
  refine (keepsContained_loadAccount _).bind fun o ho => ?_
  have hset : KeepsContained c (modify ({ · with mSigningAccount := o })) fun _ => True :=
    .modify fun s h => ⟨h.rows, h.free, h.cached, fun f hf => (ho f hf).1, h.source⟩
  exact hset.seq fun _ => .pure fun f hf => (ho f hf).1

theorem keepsContained_checkSignature (account : AccountEntry) (needed : ℤ) :
    KeepsContained c (checkSignature app env account needed) fun _ => True :=
  fun _ h => ⟨h.of_eq rfl (fun _ hp => hp) rfl rfl, True.intro⟩

theorem keepsContained_resetSignatureTracker :
    KeepsContained c (resetSignatureTracker env) fun _ => True :=
  .modify fun _ h => ⟨h.rows, h.free, h.cached, nofun, h.source⟩

theorem keepsContained_failTx (p : Prop) [Decidable p] (r : TransactionResult) :
    KeepsContained c (failTx p r) fun _ => True :=
  .ite (fun _ => .throw _) fun _ => .pure True.intro

theorem keepsContained_commonValid :
    KeepsContained c (commonValid app env (some d) 0) fun _ => True := by
  refine KeepsContained.get.seq fun header => (keepsContained_failTx _ _).seq fun _ =>
    (keepsContained_failTx _ _).seq fun _ => (keepsContained_failTx _ _).seq fun _ =>
    (keepsContained_failTx _ _).seq fun _ => (keepsContained_failTx _ _).seq fun _ =>
    keepsContained_loadSigningAccount.seq fun o => ?_
  cases o with
  | none => exact .throw _
  | some account =>
    have hbalance : KeepsContained c account.getMinimumBalance fun _ => True :=
      KeepsContained.get.seq fun _ => .pure True.intro
    exact (keepsContained_failTx _ _).seq fun _ => (keepsContained_checkSignature _ _).seq fun _ =>
      (keepsContained_failTx _ _).seq fun _ => hbalance.seq fun _ => keepsContained_failTx _ _

/-! ## Operations -/

/-- The custody while an operation is applied. -/
def Custody.of (c : Custody) (env : TransactionEnvelope) (op : Operation) : Custody :=
  c.anyone (getSourceID env op)

/-- The operation passes its check. -/
def Passes (app : Application) (env : TransactionEnvelope) (op : Operation) : Prop :=
  ∃ fee s t, OperationFrame.doCheckValid app env op fee s = .ok () t

/-- The custody admits every operation of a transaction that passes its check. -/
def AdmitsAll (c : Custody) (app : Application) (env : TransactionEnvelope) : Prop :=
  ∀ op ∈ env.tx.operations, Passes app env op → Admits (c.of env op) op

theorem wp_loadSource (h : Contained c s) :
    wp (loadSource env (some d) op)
      (fun source t => Contained c t ∧ source.getID = getSourceID env op ∧
        t.mSourceAccount = some source)
      (fun _ t => Contained c t) s := by
  unfold loadSource
  rw [wp_bind]
  refine wp_mono (keepsContained_loadAccount _ s h) (fun o t ht => ?_) fun _ _ he => he
  cases o with
  | none => cases op.sourceAccount <;> exact ht.1
  | some source =>
    obtain ⟨hholds, hid⟩ := ht.2 source rfl
    refine ⟨⟨ht.1.rows, ht.1.free, ht.1.cached, ht.1.signing, fun f hf => ?_⟩, hid, rfl⟩
    obtain rfl := Option.some.inj hf
    exact hholds

theorem wp_checkSource {source : AccountFrame} (h : Contained c s)
    (hid : source.getID = getSourceID env op) (hsource : s.mSourceAccount = some source) :
    wp (checkSource app env source op)
      (fun _ t => Contained c t ∧ InCustody (c.of env op) t) (fun _ t => Contained c t) s := by
  have hcustody : ∀ t, Contained c t → t.mSourceAccount = some source →
      InCustody (c.of env op) t := by
    intro t ht hsource
    refine ⟨ht.rows, ht.free, ht.cached, fun f hf => ?_⟩
    rw [hsource] at hf
    obtain rfl := Option.some.inj hf
    exact ⟨ht.source source hsource, hid, trivial⟩
  by_cases hmerge : ∃ destination, op.body = .ACCOUNT_MERGE destination
  · obtain ⟨destination, hbody⟩ := hmerge
    simp only [checkSource, hbody, wp_bind, wp_modify, wp_runIf, wp_throw]
    have ht : Contained c { s with mUsedSigners := [] } := h.of_eq rfl (fun _ hp => hp) rfl rfl
    exact ⟨fun _ => ht, fun _ => ⟨ht, hcustody _ ht hsource⟩⟩
  · have hcheck : checkSource app env source op = (do
        let r ← checkSignature app env source.mAccountEntry
          (getNeededThreshold source.mAccountEntry op.body)
        modify ({ · with mUsedSigners := r.usedSigners })
        runIf (!r.enough) (throw (.opFailed .opBAD_AUTH))) := by
      unfold checkSource
      cases hbody : op.body with
      | ACCOUNT_MERGE destination => exact absurd ⟨destination, hbody⟩ hmerge
      | _ => rfl
    rw [hcheck]
    simp only [checkSignature, wp_bind, wp_modify, wp_pure, wp_runIf, wp_throw]
    refine ⟨fun _ => h.of_eq rfl (fun _ hp => hp) rfl rfl, fun _ => ?_⟩
    exact ⟨h.of_eq rfl (fun _ hp => hp) rfl rfl, hcustody _ (h.of_eq rfl (fun _ hp => hp) rfl rfl)
      hsource⟩

/-- **An operation is checked** in custody. -/
theorem wp_checkValid_contained (h : Contained c s) :
    wp (OperationFrame.checkValid app env (some d) op fee)
      (fun _ t => Contained c t ∧ InCustody (c.of env op) t ∧ Passes app env op)
      (fun _ t => Contained c t) s := by
  simp only [OperationFrame.checkValid, wp_bind, Option.isNone_some, wp_runIf]
  refine wp_mono (wp_loadSource h) (fun source t ht => ?_) fun _ _ he => he
  refine wp_mono (wp_checkSource ht.1 ht.2.1 ht.2.2) (fun _ u hu => ?_) fun _ _ he => he
  refine ⟨by simp, fun _ => ?_⟩
  have hvalid : KeepsCustody (c.of env op) (OperationFrame.doCheckValid app env op fee)
      fun _ => True := (Program.doCheckValid (m := .inside 0)).keepsCustody
  refine wp_mono (wp_and_eq (hvalid u hu.2)) (fun _ v hv => ?_) fun _ v hv => hu.1.of_kept hv
  exact ⟨hu.1.of_kept hv.1.1, hv.1.1.custody, fee, u, v, hv.2⟩

/-- **An operation is applied.** -/
theorem keepsContained_applyOperation (hadmits : Passes app env op → Admits (c.of env op) op) :
    KeepsContained c (OperationFrame.apply app env d op fee) fun _ => True := by
  have hsync : KeepsContained c (syncSigningAccount env op) fun _ => True := by
    refine .modify fun s h => ⟨h.rows, h.free, h.cached, fun f hf => ?_, h.source⟩
    obtain ⟨a, ha, hf⟩ := Option.bind_eq_some_iff.mp hf
    split_ifs at hf
    · exact h.source f hf
    · exact h.signing f (ha.trans hf)
  have hresults : ∀ r : OperationResult, KeepsContained c
      (modify fun s => { s with results := s.results ++ [r] }) fun _ => True := fun r =>
    .modify fun s h => h.of_eq rfl (fun _ hp => hp) rfl rfl
  refine KeepsContained.bind (R := fun _ => True) ?_ fun r _ => hsync.seq fun _ =>
    (hresults r.2).seq fun _ => .pure True.intro
  refine .tryCatch (fun s h => ?_) fun e => ?_
  · rw [wp_bind]
    refine wp_mono (wp_checkValid_contained h) (fun _ t ht => ?_) fun _ _ he => he
    have happly : KeepsCustody (c.of env op) (OperationFrame.doApply app env d op fee)
        fun _ => True := (Program.doApply (hadmits ht.2.2)).keepsCustody
    rw [wp_bind]
    exact wp_mono (happly t ht.2.1) (fun _ u hu => ⟨ht.1.of_kept hu.1, True.intro⟩)
      fun _ u hu => ht.1.of_kept hu
  · cases e with
    | opFailed r => exact .pure True.intro
    | _ => exact .throw _

/-! ## Transactions and ledgers -/

theorem keepsContained_applyOperations {ops : List (Operation × Option OperationFee)}
    (hadmits : ∀ o ∈ ops, Passes app env o.1 → Admits (c.of env o.1) o.1) :
    KeepsContained c (applyOperations app env d ops) fun _ => True := by
  induction ops with
  | nil => exact .pure True.intro
  | cons o ops ih =>
    have hmeta : KeepsContained c (modify fun s => { s with
        tm := s.tm ++ [(s.deltas (d + 1)).getChanges] }) fun _ => True :=
      .modify fun s h => h.of_eq rfl (fun _ hp => hp) rfl rfl
    have hop : KeepsContained c (OperationFrame.apply app env (d + 1) o.1 o.2) fun _ => True :=
      keepsContained_applyOperation (hadmits o List.mem_cons_self)
    exact (hop.seq fun _ => hmeta.seq fun _ => KeepsContained.pure True.intro).nested.seq fun _ =>
      (ih fun o' ho' => hadmits o' (List.mem_cons_of_mem _ ho')).seq fun _ => .pure True.intro

theorem mem_operations {o : Operation × Option OperationFee} (h : o ∈ mOperations env) :
    o.1 ∈ env.tx.operations := by
  obtain ⟨p, hp, rfl⟩ := List.mem_map.mp h
  exact List.fst_mem_of_mem_zipIdx hp

theorem keepsContained_applyTransaction (hadmits : AdmitsAll c app env) :
    KeepsContained c (applyTransaction app env) fun _ => True := by
  have hops : KeepsContained c (applyAll app env 1) fun _ => True := by
    refine (KeepsContained.sqlTransaction ?_).nested
    refine (keepsContained_applyOperations fun o ho => hadmits o.1 (mem_operations ho)).seq
      fun b => .ite (fun _ => KeepsContained.get.seq fun _ => .throw _) fun _ => ?_
    exact KeepsContained.get.seq fun _ => .ite (fun _ => .pure True.intro) fun _ => .throw _
  have hresult : ∀ (r : TransactionResult) (b : Bool), KeepsContained c (do
      modify fun s : LedgerState => { s with mResult := r }
      return b) fun _ => True := fun r b =>
    .modify_seq (fun _ h => h.of_eq rfl (fun _ hp => hp) rfl rfl) (.pure True.intro)
  have happly : KeepsContained c (TransactionFrame.apply app env 1) fun _ => True := by
    refine .tryCatch ?_ fun e => ?_
    · refine keepsContained_resetSignatureTracker.seq fun _ => keepsContained_commonValid.seq
        fun _ => hops.seq fun _ => ?_
      exact .modify_seq (fun _ h => h.of_eq rfl (fun _ hp => hp) rfl rfl) (.pure True.intro)
    · cases e with
      | txFailed r =>
        cases r with
        | txFAILED results =>
          exact .modify_seq (fun _ h => h.of_eq rfl (fun _ hp => hp) rfl rfl) (.pure True.intro)
        | _ => exact hresult _ _
      | _ => exact .throw _
  have hdelta : KeepsContained c (applyInDelta app env) fun _ => True := by
    refine happly.seq fun b => .ite (fun _ => .pure True.intro) fun _ => KeepsContained.get.seq
      fun s => ?_
    have hassert : ∀ p : Bool, KeepsContained c (assertion p) fun _ => True := fun p =>
      .ite (fun _ => .pure True.intro) fun _ => .throw _
    exact (hassert _).seq fun _ => .throw _
  refine .modify_seq (fun _ h => h.newFrames rfl (fun _ hp => hp) rfl rfl)
    ((KeepsContained.tryCatch hdelta.nested fun e => ?_).seq fun _ =>
      .modify fun s h => h.of_eq rfl (fun _ hp => hp) rfl rfl)
  cases e with
  | txFailed r => exact .pure True.intro
  | abort => exact .throw _
  | opFailed r => exact .modify fun s h => h.of_eq rfl (fun _ hp => hp) rfl rfl
  | exception what => exact .modify fun s h => h.of_eq rfl (fun _ hp => hp) rfl rfl

theorem keepsContained_processFeeSeqNum :
    KeepsContained c (processFeeSeqNum env d) fun _ => True := by
  refine keepsContained_resetSignatureTracker.seq fun _ =>
    keepsContained_loadSigningAccount.bind fun o ho => ?_
  cases o with
  | none => exact .throw _
  | some account =>
    refine .ite (fun _ => .throw _) fun _ => ?_
    have hstore : KeepsContained c ({ account with mAccountEntry := { account.mAccountEntry with
        seqNum := env.tx.seqNum } : AccountFrame }.storeChange d)
        (SameAccount { account with mAccountEntry := { account.mAccountEntry with
          seqNum := env.tx.seqNum } }) :=
      .of_custody fun _ => keepsCustody_storeChange (ho account rfl)
    refine hstore.bind fun account' hsame => .modify fun s h =>
      ⟨h.rows, h.free, h.cached, fun f hf => ?_, h.source⟩
    obtain rfl := Option.some.inj hf
    exact Custody.Holds.same (ho account rfl) ⟨hsame.id, hsame.type, hsame.thresholds, hsame.signers⟩

theorem keepsContained_processFeesSeqNums (txs : List TransactionEnvelope) :
    KeepsContained c (processFeesSeqNums txs) fun _ => True :=
  .sqlTransaction (.forM fun _ _ => keepsContained_processFeeSeqNum.nested)

/-! ## Genesis -/

/-- A new account of a type. -/
def newAccount (id : AccountID) (accountType : AccountType) : AccountFrame :=
  { mAccountEntry := { accountID := id, thresholds := { masterWeight := 1 }, accountType } }

theorem startNewLedger_eq (app : Application) :
    startNewLedger app = (do
      modify fun s => { s with
        mCurrentLedger := { maxTxSetSize := 100, ledgerSeq := 1 }
        deltas := Function.update s.deltas 0 (.ofHeader { maxTxSetSize := 100, ledgerSeq := 1 }) }
      let _ ← (newAccount app.BANK_MASTER_KEY .ACCOUNT_BANK).storeAdd 0
      runIf (app.BANK_MASTER_KEY ≠ app.BANK_COMMISSION_KEY) do
        let _ ← (newAccount app.BANK_COMMISSION_KEY .ACCOUNT_COMMISSION).storeAdd 0
      commitLedger) := rfl

/-- What a new account adds. -/
theorem wp_storeAdd_newAccount (id : AccountID)
    (accountType : AccountType) :
    wp ((newAccount id accountType).storeAdd d)
      (fun _ t => (∃ lastmodified, t.db.accounts =
          s.db.accounts.insert id ⟨(newAccount id accountType).mAccountEntry, lastmodified⟩) ∧
        (∀ p ∈ t.mEntryCache, p ∈ s.mEntryCache) ∧ t.mSigningAccount = s.mSigningAccount ∧
          t.mSourceAccount = s.mSourceAccount)
      (fun _ _ => True) s := by
  simp only [AccountFrame.storeAdd, assertion, touch, flushCachedEntry, wp_bind,
    wp_require, wp_get, wp_modify, wp_pure]
  refine ⟨fun _ => ⟨fun _ => ?_, fun _ => trivial⟩, fun _ => trivial⟩
  split
  · exact trivial
  · simp only [wp_bind, wp_modify, wp_updateDelta, wp_runIf, wp_pure]
    refine ⟨fun δ _ => ⟨fun _ => ?_, fun hupdate => absurd rfl hupdate⟩, fun _ => trivial⟩
    -- there are no signers to add
    simp only [AccountFrame.applySigners, AccountFrame.getID, newAccount, wp_bind, wp_get,
      Std.ExtTreeMap.getElem?_insert_self]
    exact ⟨⟨_, rfl⟩, mem_of_mem_eraseCached, rfl, rfl⟩

/-- Only new accounts that the custody allows, and the one of the bank among them. -/
structure Genesis (c : Custody) (app : Application) (s : LedgerState) : Prop where
  rows : ∀ (id : AccountID) (row : Row AccountEntry), s.db.accounts[id]? = some row →
    ∃ accountType, row.entry = (newAccount id accountType).mAccountEntry ∧
      c.account id accountType { masterWeight := 1 }
  bank : app.BANK_MASTER_KEY ∈ s.db.accounts
  cached : ∀ p, p ∉ s.mEntryCache
  signing : s.mSigningAccount = none
  source : s.mSourceAccount = none

theorem Genesis.contained (h : Genesis c app s)
    (hfree : ∀ id ≠ app.BANK_MASTER_KEY, c.Deletable id) : Contained c s where
  rows id row hrow := by
    obtain ⟨accountType, hentry, htype⟩ := h.rows id row hrow
    rw [hentry]
    exact ⟨rfl, htype, nofun⟩
  free id hnone := by
    refine hfree id fun hid => ?_
    have hbank := h.bank
    rw [← hid, Std.ExtTreeMap.mem_iff_isSome_getElem?, hnone] at hbank
    cases hbank
  cached k lastModified a hmem := absurd hmem (h.cached _)
  signing f hf := by
    rw [h.signing] at hf
    cases hf
  source f hf := by
    rw [h.source] at hf
    cases hf

/-- One more of them. -/
theorem Genesis.insert {id : AccountID} {accountType : AccountType}
    {lastmodified : ℕ}
    (hrows : ∀ (id : AccountID) (row : Row AccountEntry), s.db.accounts[id]? = some row →
      ∃ accountType, row.entry = (newAccount id accountType).mAccountEntry ∧
        c.account id accountType { masterWeight := 1 })
    (htype : c.account id accountType { masterWeight := 1 })
    (haccounts : t.db.accounts =
      s.db.accounts.insert id ⟨(newAccount id accountType).mAccountEntry, lastmodified⟩)
    (id' : AccountID) (row : Row AccountEntry) (hrow : t.db.accounts[id']? = some row) :
    ∃ accountType, row.entry = (newAccount id' accountType).mAccountEntry ∧
      c.account id' accountType { masterWeight := 1 } := by
  rw [haccounts, Std.ExtTreeMap.getElem?_insert] at hrow
  split_ifs at hrow with heq
  · obtain rfl := Std.LawfulEqCmp.eq_of_compare heq
    obtain rfl := Option.some.inj hrow
    exact ⟨accountType, rfl, htype⟩
  · exact hrows id' row hrow

/-- **The first ledger** has the two accounts, and an empty cache. -/
theorem wp_startNewLedger (hbank : c.account app.BANK_MASTER_KEY .ACCOUNT_BANK { masterWeight := 1 })
    (hcommission : app.BANK_MASTER_KEY ≠ app.BANK_COMMISSION_KEY →
      c.account app.BANK_COMMISSION_KEY .ACCOUNT_COMMISSION { masterWeight := 1 })
    (hfree : ∀ id ≠ app.BANK_MASTER_KEY, c.Deletable id) :
    wp (startNewLedger app) (fun _ s => Contained c s ∧ ∀ p, p ∉ s.mEntryCache) (fun _ _ => True)
      {} := by
  have hcommit : ∀ s, Genesis c app s →
      wp commitLedger (fun _ t => Contained c t ∧ ∀ p, p ∉ t.mEntryCache) (fun _ _ => True) s := by
    intro s h
    simp only [commitLedger, wp_bind, wp_get, wp_ite, wp_throw, wp_set]
    exact ⟨fun _ => trivial,
      fun _ => ⟨(h.contained hfree).of_eq rfl (fun _ hp => hp) rfl rfl, h.cached⟩⟩
  rw [startNewLedger_eq]
  simp only [wp_bind, wp_modify, wp_runIf]
  refine wp_mono (wp_storeAdd_newAccount _ _) (fun _ s hs => ?_) fun _ _ he => he
  obtain ⟨⟨lastmodified, haccounts⟩, hcache, hsigning, hsource⟩ := hs
  have hgenesis : Genesis c app s := by
    refine ⟨Genesis.insert ?_ hbank haccounts, ?_, fun p hp => ?_, hsigning, hsource⟩
    · intro id row hrow
      simp at hrow
    · rw [haccounts]
      exact Std.ExtTreeMap.mem_insert_self
    · cases hcache p hp
  refine ⟨fun hne => ?_, fun _ => hcommit s hgenesis⟩
  refine wp_mono (wp_storeAdd_newAccount _ _) (fun _ t ht => hcommit t ?_) fun _ _ he => he
  obtain ⟨⟨lastmodified', haccounts'⟩, hcache', hsigning', hsource'⟩ := ht
  refine ⟨Genesis.insert hgenesis.rows (hcommission hne) haccounts', ?_,
    fun p hp => hgenesis.cached p (hcache' p hp), hsigning'.trans hgenesis.signing,
    hsource'.trans hgenesis.source⟩
  rw [haccounts']
  exact Std.ExtTreeMap.mem_insert.mpr (Or.inr hgenesis.bank)

end SmartCore.Transactions
