import SmartCore.Transactions.SetOptions
import SmartCore.Transactions.Steps

/-!
# Privileged roles

An account is of the type BANK or COMMISSION only if it is one of the two that are there from the
beginning, and only the bank has signers that may issue or administer.

**Theorem (`roles_contained`).** In every ledger from genesis on, only the account of the bank's key
is of the type BANK, at most one account is of the type COMMISSION, and each signer of the type
ADMIN or EMISSION is on the account of the bank and was added by a `SET_OPTIONS` of it that was applied
with success, in a transaction that succeeded, and for which a signature by the key of the bank itself
was used.

The account of the bank stays there: an account that is deleted could be there again as a new one, of
a type that anyone may choose. Whether the bank may add a signer depends on the signatures that the
check before has used, so that an operation that sets options is followed from its source on.
-/

namespace SmartCore.Transactions

open SmartCore.Ledger TransactionFrame OperationFrame LedgerManager

variable {app : Application} {env : TransactionEnvelope} {op : Operation} {d : ℕ}
  {ledgers : List LedgerCloseData} {s s' s₁ t u : LedgerState}
  {o : Operation × Option OperationFee}

/-- The types of signers that a check asks for by name. -/
def Privileged (signerType : ℕ) : Prop :=
  signerType = SIGNER_ADMIN ∨ signerType = SIGNER_EMISSION

/-- The operation, applied with success after `t`, adds a signer to the account of the bank. It brings
the signer, the account has none with the key in memory and none with the key and the type in the
ledger, and then the account has it; in the ledger, unless there the key was with the same weight. A
signature by the key of the account itself is used. -/
structure AddsSigner (app : Application) (env : TransactionEnvelope) (d : ℕ)
    (o : Operation × Option OperationFee) (t u : LedgerState) (signer : Signer) : Prop where
  source : getSourceID env o.1 = app.BANK_MASTER_KEY
  brings : ∃ options, o.1.body = .SET_OPTIONS options ∧ options.signer = some signer
  weight : signer.weight ≠ 0
  succeeds : OperationFrame.apply app env (d + 1) o.1 o.2 (withDelta d t) = .ok true u
  row : ∃ row row' : Row AccountEntry, t.db.accounts[app.BANK_MASTER_KEY]? = some row ∧
    u.db.accounts[app.BANK_MASTER_KEY]? = some row' ∧
      (∀ old ∈ row.entry.signers,
        ¬ (old.pubKey = signer.pubKey ∧ old.signerType = signer.signerType)) ∧
          (signer ∈ row'.entry.signers ∨ ∃ old ∈ row.entry.signers, old ∈ row'.entry.signers ∧
            weightedKey old = weightedKey signer)
  memory : ∃ account t₁ account', loadSource env (some (d + 1)) o.1 (withDelta d t) =
      .ok account t₁ ∧ u.mSourceAccount = some account' ∧
    account.getID = app.BANK_MASTER_KEY ∧ account'.getID = app.BANK_MASTER_KEY ∧
      (∀ old ∈ account.mAccountEntry.signers, old.pubKey ≠ signer.pubKey) ∧
        signer ∈ account'.mAccountEntry.signers ∧
          ∃ used ∈ (operationCheck app env o.1 account.mAccountEntry).usedSigners,
            used.pubKey = app.BANK_MASTER_KEY ∧
              ∃ sig ∈ env.signatures, signs app env sig used = true

/-- An operation adds a signer of the key and the type: one of a transaction that succeeds, in one of
the ledgers. -/
def AddedByBank (app : Application) (ledgers : List LedgerCloseData) (pubKey : AccountID)
    (signerType : ℕ) : Prop :=
  ∃ earlier data later txs env rest s₀ s s', ledgers = earlier ++ data :: later ∧
    data.txs = txs ++ env :: rest ∧ runLedgers app earlier {} = .ok () s₀ ∧
      beforeTransaction app data txs s₀ = .ok () s ∧
        TransactionFrame.apply app env 1 (begun s) = .ok true s' ∧
          ∃ s₁ pre o post t u signer, startOperations app env 1 (begun s) = .ok () s₁ ∧
            mOperations env = pre ++ o :: post ∧ applyOperations app env 2 pre s₁ = .ok false t ∧
              AddsSigner app env 2 o t u signer ∧ signer.pubKey = pubKey ∧
                signer.signerType = signerType

/-- Who has which role. -/
structure Roles (app : Application) (ledgers : List LedgerCloseData) (s : LedgerState) : Prop where
  bank : ∀ (id : AccountID) (row : Row AccountEntry), s.db.accounts[id]? = some row →
    row.entry.accountType = .ACCOUNT_BANK → id = app.BANK_MASTER_KEY
  commission : ∀ (id id' : AccountID) (row row' : Row AccountEntry),
    s.db.accounts[id]? = some row → s.db.accounts[id']? = some row' →
      row.entry.accountType = .ACCOUNT_COMMISSION → row'.entry.accountType = .ACCOUNT_COMMISSION →
        id = id'
  signers : ∀ (id : AccountID) (row : Row AccountEntry), s.db.accounts[id]? = some row →
    ∀ signer ∈ row.entry.signers, Privileged signer.signerType →
      row.entry.accountType = .ACCOUNT_BANK ∧
        AddedByBank app ledgers signer.pubKey signer.signerType

/-- The custody that keeps the roles. -/
def roleCustody (app : Application) (ledgers : List LedgerCloseData) : Custody where
  account id t _ :=
    (t = .ACCOUNT_BANK ↔ id = app.BANK_MASTER_KEY) ∧
      (t = .ACCOUNT_COMMISSION → id = app.BANK_COMMISSION_KEY)
  signer id pubKey signerType :=
    Privileged signerType → id = app.BANK_MASTER_KEY ∧ AddedByBank app ledgers pubKey signerType
  newType t := t ≠ .ACCOUNT_BANK ∧ t ≠ .ACCOUNT_COMMISSION
  source := 0

/-- Every account in the ledger is one that the custody allows. -/
structure RowsHold (c : Custody) (s : LedgerState) : Prop where
  rows : ∀ (id : AccountID) (row : Row AccountEntry), s.db.accounts[id]? = some row →
    row.entry.accountID = id ∧ c.HoldsEntry row.entry
  free : ∀ id : AccountID, s.db.accounts[id]? = none → c.Deletable id

/-- What is in a coherent cache is in the rows. -/
theorem RowsHold.contained {c : Custody} (h : RowsHold c s) (hs : Coherent s)
    (hsigning : ∀ f, s.mSigningAccount = some f → c.Holds f)
    (hsource : ∀ f, s.mSourceAccount = some f → c.Holds f) : Contained c s :=
  ⟨h.rows, h.free, fun k _ _ hmem => holds_select h.rows (hs k _ hmem).symm, hsigning, hsource⟩

theorem Contained.rowsHold {c : Custody} (h : Contained c s) : RowsHold c s := ⟨h.rows, h.free⟩

theorem RowsHold.of_eq {c : Custody} (h : RowsHold c s) (hdb : t.db.accounts = s.db.accounts) :
    RowsHold c t := by
  constructor
  · rw [hdb]
    exact h.rows
  · rw [hdb]
    exact h.free

theorem RowsHold.roles (h : RowsHold (roleCustody app ledgers) s) : Roles app ledgers s := by
  refine ⟨fun id row hrow htype => ?_, fun id id' row row' hrow hrow' htype htype' => ?_,
    fun id row hrow signer hsigner hprivileged => ?_⟩
  · obtain ⟨hid, ⟨hbank, -⟩, -⟩ := h.rows id row hrow
    exact hid ▸ hbank.mp htype
  · obtain ⟨hid, ⟨-, hcommission⟩, -⟩ := h.rows id row hrow
    obtain ⟨hid', ⟨-, hcommission'⟩, -⟩ := h.rows id' row' hrow'
    rw [← hid, ← hid', hcommission htype, hcommission' htype']
  · obtain ⟨-, ⟨hbank, -⟩, hsigners⟩ := h.rows id row hrow
    obtain ⟨hid, hadded⟩ := hsigners signer hsigner hprivileged
    exact ⟨hbank.mpr hid, hadded⟩

/-- Only the account of the bank cannot be deleted. -/
theorem deletable_of_ne {id : AccountID} (h : id ≠ app.BANK_MASTER_KEY) :
    (roleCustody app ledgers).Deletable id :=
  fun _ _ ht => ⟨⟨fun hbank => absurd hbank ht.1, fun hid => absurd hid h⟩,
    fun hcommission => absurd hcommission ht.2⟩

/-! ## What the checks rule out -/

theorem newType_of_passes (ledgers : List LedgerCloseData) {o : CreateAccountOp}
    (hbody : op.body = .CREATE_ACCOUNT o)
    (h : Passes app env op) : (roleCustody app ledgers).newType o.accountType := by
  obtain ⟨fee, s, t, hvalid⟩ := h
  rw [OperationFrame.doCheckValid, hbody] at hvalid
  have hwp : wp (CreateAccountOpFrame.doCheckValid app (getSourceID env op) o)
      (fun _ _ => (roleCustody app ledgers).newType o.accountType) (fun _ _ => True) s := by
    unfold CreateAccountOpFrame.doCheckValid
    cases htype : o.accountType <;>
      simp [roleCustody, wp_bind, wp_failIf, fail]
  have hnew := of_wp_ok hwp hvalid
  exact hnew

theorem source_ne_bank_of_passes {destination : AccountID}
    (hbody : op.body = .ACCOUNT_MERGE destination) (h : Passes app env op) :
    getSourceID env op ≠ app.BANK_MASTER_KEY := by
  obtain ⟨fee, s, t, hvalid⟩ := h
  rw [OperationFrame.doCheckValid, hbody] at hvalid
  have hwp : wp (MergeOpFrame.doCheckValid app op.sourceAccount destination)
      (fun _ _ => getSourceID env op ≠ app.BANK_MASTER_KEY) (fun _ _ => True) s := by
    unfold MergeOpFrame.doCheckValid
    cases hsource : op.sourceAccount with
    | none => exact trivial
    | some source =>
      simp only [wp_bind, wp_failIf]
      refine ⟨fun _ => trivial, fun _ => ⟨fun _ => trivial, fun hne => ?_⟩⟩
      rw [getSourceID, hsource]
      exact hne
  have hne := of_wp_ok hwp hvalid
  exact hne

/-- The signers that the loop returns have signed. -/
theorem signs_of_mem_usedSigners {needed : ℤ} {signatures : List DecoratedSignature} {i : ℕ}
    {keys : List Signer} {total : ℤ} {used : Signer}
    (h : used ∈ (checkSignatureLoop app env needed signatures i keys total).usedSigners) :
    ∃ sig ∈ signatures, signs app env sig used = true := by
  induction signatures generalizing i keys total with
  | nil => cases h
  | cons sig signatures ih =>
    have hlater : (∃ sig ∈ signatures, signs app env sig used = true) →
        ∃ sig' ∈ sig :: signatures, signs app env sig' used = true := by
      intro hex
      obtain ⟨sig', hmem, hsigns⟩ := hex
      exact ⟨sig', List.mem_cons_of_mem _ hmem, hsigns⟩
    unfold checkSignatureLoop at h
    cases hfind : keys.find? (signs app env sig) with
    | none =>
      rw [hfind] at h
      exact hlater (ih h)
    | some signer =>
      rw [hfind] at h
      dsimp only at h
      split_ifs at h
      · rw [List.mem_singleton.mp h]
        exact ⟨sig, List.mem_cons_self, List.find?_some hfind⟩
      · rcases List.mem_cons.mp h with rfl | h
        · exact ⟨sig, List.mem_cons_self, List.find?_some hfind⟩
        · exact hlater (ih h)

/-! ## Operations -/

theorem admits_of_passes (hother : ¬ ∃ options, op.body = .SET_OPTIONS options)
    (h : Passes app env op) : Admits ((roleCustody app ledgers).of env op) op := by
  refine ⟨⟨nofun, nofun⟩, fun o hbody => newType_of_passes ledgers hbody h,
    fun destination hbody => ?_, fun options hbody => absurd ⟨options, hbody⟩ hother,
    fun _ _ => trivial⟩
  have hdelete : (roleCustody app ledgers).Deletable (getSourceID env op) :=
    deletable_of_ne (source_ne_bank_of_passes hbody h)
  exact hdelete

/-- A privileged signer is only set by the bank, with its own key first among the signatures. -/
theorem bank_of_allowed {signer : Signer} {f : AccountFrame} {used : List Signer}
    (hf : (roleCustody app ledgers).Holds f)
    (hallowed : SetOptionsOpFrame.signerTypeAllowed f used signer = true)
    (hprivileged : Privileged signer.signerType) :
    f.getID = app.BANK_MASTER_KEY ∧ ∃ first ∈ used, first.pubKey = app.BANK_MASTER_KEY := by
  have hgeneral : signer.signerType ≠ SIGNER_GENERAL := by
    rcases hprivileged with h | h <;> rw [h] <;> decide
  have hnamed : signer.signerType = SIGNER_EMISSION ∨ signer.signerType = SIGNER_ADMIN :=
    hprivileged.symm
  unfold SetOptionsOpFrame.signerTypeAllowed at hallowed
  rw [if_neg hgeneral, if_pos hnamed, decide_eq_true_eq] at hallowed
  obtain ⟨htype, hhead⟩ := hallowed
  have hbank : f.getID = app.BANK_MASTER_KEY := hf.1.1.mp htype
  cases used with
  | nil => cases hhead
  | cons first rest =>
    have hfirst : first.pubKey = f.getID := by simpa using hhead
    exact ⟨hbank, first, List.mem_cons_self, hfirst.trans hbank⟩

section Options

variable {source g : AccountFrame} {t₂ v : LedgerState} {options : SetOptionsOp} {signer : Signer}

/-- The source of an operation is one that the custody allows. -/
theorem Ran.holds {c : Custody} (hran : Ran app env d o t source t₂ v u) (hc : Contained c t) :
    c.Holds source := by
  rcases hran.loaded with hsigning | ⟨-, row, b, hrow, rfl⟩
  · exact hc.signing source hsigning
  · obtain ⟨-, haccount, hsigners⟩ := hc.rows _ row hrow
    refine ⟨haccount, fun signer hsigner => hsigners signer ?_⟩
    unfold AccountFrame.ofRow at hsigner
    dsimp only at hsigner
    split_ifs at hsigner
    · exact hsigner
    · cases hsigner

/-- The bank sets a signer that has not been there, neither in memory nor in the ledger. -/
theorem addsSigner_of_set {row : Row AccountEntry}
    (hop : OperationFrame.apply app env (d + 1) o.1 o.2 (withDelta d t) = .ok true u)
    (hran : Ran app env d o t source t₂ v u) (hbody : o.1.body = .SET_OPTIONS options)
    (hset : OptionsSet options source g t₂ v) (hnew : options.signer = some signer)
    (hsigner : signer ∈ g.mAccountEntry.signers) (hweight : signer.weight ≠ 0)
    (hnone : ∀ old ∈ source.mAccountEntry.signers, old.pubKey ≠ signer.pubKey)
    (hbank : source.getID = app.BANK_MASTER_KEY)
    (hused : ∃ used ∈ t₂.mUsedSigners, used.pubKey = app.BANK_MASTER_KEY)
    (hrow : t.db.accounts[app.BANK_MASTER_KEY]? = some row)
    (hfresh : ∀ old ∈ row.entry.signers,
      ¬ (old.pubKey = signer.pubKey ∧ old.signerType = signer.signerType)) :
    AddsSigner app env d o t u signer := by
  have hid : g.getID = app.BANK_MASTER_KEY := hset.owned.id.trans hbank
  obtain ⟨row₂, lastmodified, hrow₂, hput, -⟩ := hset.stored.row
  rw [hid, hran.db, hrow] at hrow₂
  obtain rfl := Option.some.inj hrow₂
  rw [hid] at hput
  have hrow' : u.db.accounts[app.BANK_MASTER_KEY]? =
      some ⟨{ g.mAccountEntry with signers := g.storedSigners row }, lastmodified⟩ := by
    rw [hran.rest.1]
    exact hput
  have hstored : g.storedSigners row =
      AccountFrame.mergeSigners g.mAccountEntry.signers row.entry.signers :=
    if_pos (hset.signed signer hnew).1
  have hkept : signer ∈ g.storedSigners row ∨ ∃ old ∈ row.entry.signers,
      old ∈ g.storedSigners row ∧ weightedKey old = weightedKey signer := by
    rw [hstored]
    exact mem_mergeSigners_of_mem hsigner
  obtain ⟨g', hg', hentry⟩ := hset.source
  obtain ⟨t₁, hload⟩ := hran.load
  have hmerge : ¬ IsMerge o.1 := fun ⟨destination, hmerge⟩ => by
    rw [hbody] at hmerge
    cases hmerge
  obtain ⟨-, -, hcheck, -⟩ := hran.check.resolve_left fun h => hmerge h.1
  obtain ⟨used, hmem, hkey⟩ := hused
  rw [hcheck] at hmem
  have hid' : g'.getID = app.BANK_MASTER_KEY := by
    show g'.mAccountEntry.accountID = _
    rw [hentry]
    exact hid
  have hsigner' : signer ∈ g'.mAccountEntry.signers := hentry ▸ hsigner
  exact ⟨hran.id.symm.trans hbank, ⟨options, hbody, hnew⟩, hweight, hop,
    ⟨row, _, hrow, hrow', hfresh, hkept⟩,
    ⟨source, t₁, g', hload, hran.rest.2.2.trans hg', hbank, hid', hnone, hsigner', used, hmem,
      hkey, signs_of_mem_usedSigners hmem⟩⟩

/-- What the operation stores is one that the custody allows: a privileged signer that is new is one
that it adds. -/
theorem holds_of_set (hc : Contained (roleCustody app ledgers) t)
    (hop : OperationFrame.apply app env (d + 1) o.1 o.2 (withDelta d t) = .ok true u)
    (hran : Ran app env d o t source t₂ v u) (hbody : o.1.body = .SET_OPTIONS options)
    (hset : OptionsSet options source g t₂ v)
    (hadded : ∀ signer, AddsSigner app env d o t u signer →
      AddedByBank app ledgers signer.pubKey signer.signerType) :
    (roleCustody app ledgers).Holds g := by
  have hsource := hran.holds hc
  have hid : g.mAccountEntry.accountID = source.mAccountEntry.accountID := hset.owned.id
  have haccount := hsource.1
  rw [← hid, ← hset.owned.type] at haccount
  refine ⟨haccount, fun signer hsigner => ?_⟩
  rw [hid]
  cases hnew : options.signer with
  | none =>
    rw [(hset.unsigned hnew).signers] at hsigner
    exact hsource.2 signer hsigner
  | some new =>
    obtain ⟨-, hsigners, hallowed⟩ := hset.signed new hnew
    rcases hsigners signer hsigner with ⟨old, hold, hkey, htype⟩ | ⟨rfl, hweight, hnone⟩
    · rw [← hkey, ← htype]
      exact hsource.2 old hold
    · intro hprivileged
      obtain ⟨hbank, hused⟩ := bank_of_allowed hsource hallowed hprivileged
      refine ⟨hbank, ?_⟩
      obtain ⟨row, -, hrow, -⟩ := hset.stored.row
      rw [hset.owned.id, hbank, hran.db] at hrow
      by_cases hthere : ∃ old ∈ row.entry.signers,
          old.pubKey = signer.pubKey ∧ old.signerType = signer.signerType
      · -- it was in the ledger already
        obtain ⟨old, hold, hkey, htype⟩ := hthere
        obtain ⟨-, -, hrows⟩ := hc.rows _ row hrow
        rw [← hkey, ← htype]
        rw [← htype] at hprivileged
        exact (hrows old hold hprivileged).2
      · exact hadded signer (addsSigner_of_set hop hran hbody hset hnew hsigner hweight hnone hbank
          hused hrow fun old hold h => hthere ⟨old, hold, h⟩)

end Options

/-! ## Rows -/

/-- An account is stored. -/
theorem RowsHold.wrote {c : Custody} (h : RowsHold c s) {f : AccountFrame} (hf : c.Holds f)
    (hwrote : f.Wrote s t) : RowsHold c t := by
  obtain ⟨row, lastmodified, hrow, hput, hother⟩ := hwrote.row
  obtain ⟨hid, -, hsigners⟩ := h.rows _ row hrow
  have hstored : ∀ signer ∈ f.storedSigners row, c.signer f.getID signer.pubKey signer.signerType := by
    intro signer hsigner
    have hold (hmem : signer ∈ row.entry.signers) :
        c.signer f.getID signer.pubKey signer.signerType := by
      rw [← hid]
      exact hsigners signer hmem
    unfold AccountFrame.storedSigners at hsigner
    split_ifs at hsigner
    · rcases mem_mergeSigners hsigner with hmem | hmem
      · exact hf.2 signer hmem
      · exact hold hmem
    · exact hold hsigner
  refine ⟨fun id row' hrow' => ?_, fun id hnone => ?_⟩
  · by_cases heq : id = f.getID
    · rw [heq] at hrow' ⊢
      obtain rfl := Option.some.inj (hrow'.symm.trans hput)
      exact ⟨rfl, hf.1, hstored⟩
    · rw [hother id heq] at hrow'
      exact h.rows id row' hrow'
  · by_cases heq : id = f.getID
    · rw [heq, hput] at hnone
      cases hnone
    · rw [hother id heq] at hnone
      exact h.free id hnone

/-! ## Transactions -/

/-- **One operation** keeps the roles. -/
theorem contained_step {t' : LedgerState} (hc : Contained (roleCustody app ledgers) t)
    (hany : Contained anyCustody t) (hin : Inside [] d t) (hafter : Coherent t')
    (hop : OperationStep app env d o true t u t')
    (hadded : ∀ signer, AddsSigner app env d o t u signer →
      AddedByBank app ledgers signer.pubKey signer.signerType) :
    Contained (roleCustody app ledgers) t' := by
  by_cases hsets : ∃ options, o.1.body = .SET_OPTIONS options
  · obtain ⟨options, hbody⟩ := hsets
    obtain ⟨source, t₂, v, hran⟩ := hop.ran hany hin
    obtain ⟨deltas, rfl⟩ := hop.after
    obtain ⟨t₃, r, hvalid, happly⟩ := hran.apply
    obtain ⟨g, hset⟩ := optionsSet_of_programs hbody hran.mSourceAccount hvalid happly
    have hg := holds_of_set hc hop.apply hran hbody hset hadded
    have hrows : RowsHold (roleCustody app ledgers) v :=
      (hc.rowsHold.of_eq (congrArg _ hran.db)).wrote hg hset.stored
    obtain ⟨g', hg', hentry⟩ := hset.source
    have hsource : ∀ f, v.mSourceAccount = some f → (roleCustody app ledgers).Holds f := by
      intro f hf
      obtain rfl := Option.some.inj (hf.symm.trans hg')
      unfold Custody.Holds
      rw [hentry]
      exact hg
    have hrows' : RowsHold (roleCustody app ledgers)
        { u with tm := u.tm ++ [(u.deltas (d + 1)).getChanges], deltas } :=
      hrows.of_eq (congrArg _ hran.rest.1)
    refine hrows'.contained hafter (fun f hf => ?_) fun f hf => ?_
    · have hf : u.mSigningAccount = some f := hf
      rw [hran.mSigningAccount] at hf
      obtain ⟨a, ha, hf⟩ := Option.bind_eq_some_iff.mp hf
      split_ifs at hf
      · exact hsource f hf
      · obtain rfl := Option.some.inj hf
        exact hc.signing a ha
    · exact hsource f (hran.rest.2.2.symm.trans hf)
  · have hopened : Contained (roleCustody app ledgers) (withDelta d t) :=
      hc.of_eq rfl (fun _ hp => hp) rfl rfl
    have hkeeps : KeepsContained (roleCustody app ledgers)
        (OperationFrame.apply app env (d + 1) o.1 o.2) fun _ => True :=
      keepsContained_applyOperation (admits_of_passes hsets)
    obtain ⟨deltas, rfl⟩ := hop.after
    exact (of_wp_ok (hkeeps _ hopened) hop.apply).1.of_eq rfl (fun _ hp => hp) rfl rfl

/-- **The operations** of a transaction that succeeds keep the roles. -/
theorem contained_applyOperations (hs : Ordered s) (hc : Contained (roleCustody app ledgers) s)
    (hstart : startOperations app env d s = .ok () s₁)
    (hadded : ∀ pre o post t u signer, mOperations env = pre ++ o :: post →
      applyOperations app env (d + 1) pre s₁ = .ok false t →
        AddsSigner app env (d + 1) o t u signer →
          AddedByBank app ledgers signer.pubKey signer.signerType)
    (hops : applyOperations app env (d + 1) (mOperations env) s₁ = .ok false s') :
    Contained (roleCustody app ledgers) s' := by
  obtain ⟨hany, hin⟩ := contained_startOperations hs.contained hs.coherent hstart
  refine applyOperations_induct_ok (P := fun ops t => (∃ post, mOperations env = ops ++ post) →
    Contained (roleCustody app ledgers) t) (fun _ => ?_) (fun pre o t u t' hpre hlast hop ih hex => ?_)
    hops ⟨[], (List.append_nil _).symm⟩
  · exact (contained_startOperations hc hs.coherent hstart).1
  · obtain ⟨post, hpost⟩ := hex
    have hsplit : mOperations env = pre ++ o :: post := hpost.trans (List.append_cons _ _ _).symm
    obtain ⟨hany, hin'⟩ := inside_applyOperations hany hin hpre
    have hafter := (inside_applyOperations (contained_startOperations hs.contained hs.coherent
      hstart).1 hin hlast).2.coherent
    exact contained_step (ih ⟨o :: post, hsplit⟩) hany hin' hafter hop
      fun signer hadds => hadded pre o post t u signer hsplit hpre hadds

/-- The rows after a transaction: those that its operations leave if it succeeds, or those of
before. -/
def RowsAfter (app : Application) (env : TransactionEnvelope) (s s' : LedgerState) : Prop :=
  s'.db = s.db ∨ ∃ t s₁ u, TransactionFrame.apply app env 1 (begun s) = .ok true t ∧
    startOperations app env 1 (begun s) = .ok () s₁ ∧
      applyOperations app env 2 (mOperations env) s₁ = .ok false u ∧ s'.db = u.db

/-- The delta of a transaction is committed only if it succeeds. -/
theorem wp_nested_applyInDelta_rows (hs : Ordered s) :
    wp (nested 0 (applyInDelta app env)) (fun _ s' => RowsAfter app env s s') (fun _ _ => True)
      (newFrames s) := by
  have hc : Contained anyCustody (begun s) := hs.contained.newFrames rfl (fun _ hp => hp) rfl rfl
  have happly := wp_and (wp_apply (admitsAll_anyCustody app env) hc ⟨hs.coherent, nofun⟩)
    (wp_self _ (begun s))
  simp only [nested, openDelta, rollback, applyInDelta, wp_bind, wp_modify, wp_tryCatch, wp_throw,
    wp_pure]
  refine wp_mono happly (fun succeeded s' hs' => ?_) fun _ _ _ => trivial
  obtain ⟨hs', heq⟩ := hs'
  cases succeeded with
  | false =>
    simp only [Bool.false_eq_true, ↓reduceIte, assertion, wp_bind, wp_get, wp_require, wp_throw]
    exact ⟨fun _ => trivial, fun _ => trivial⟩
  | true =>
    obtain ⟨t, u, v, hchecks, -, hsucceeds, hcommit, hdone⟩ := (hs'.1 rfl).reflects
    obtain ⟨δ, hv, -⟩ := of_wp_ok (wp_commit_delta 1 u) hcommit
    have hstart : startOperations app env 1 (begun s) = .ok () (withDelta 1 t) := by
      obtain ⟨_, t₁, hreset, hvalid⟩ := bind_eq_ok.mp hchecks
      exact bind_eq_ok.mpr ⟨_, t₁, hreset, bind_eq_ok.mpr ⟨_, t, hvalid, rfl⟩⟩
    have hdb : s'.db = u.db := by rw [hdone, hv]
    simp only [↓reduceIte, wp_pure]
    refine wp_mono (wp_commit_delta 0 s') (fun _ w hw => ?_) fun _ _ _ => trivial
    obtain ⟨δ', rfl, -⟩ := hw
    exact Or.inr ⟨s', _, u, heq, hstart, hsucceeds.operations, hdb⟩

theorem wp_applyTransaction_rows (hs : Ordered s) :
    wp (applyTransaction app env) (fun _ s' => RowsAfter app env s s') (fun _ _ => True) s := by
  have hnested := wp_and (wp_nested_applyInDelta (admitsAll_anyCustody app env) hs.contained
    hs.coherent) (wp_nested_applyInDelta_rows hs)
  unfold applyTransaction storeTransaction
  simp only [wp_bind, wp_modify, wp_tryCatch]
  refine wp_mono hnested (fun _ _ hs' => hs'.2) fun e s' hs' => ?_
  cases e with
  | abort => exact trivial
  | txFailed r => exact Or.inl (hs'.1.resolve_left (by simp)).2.1.rows
  | _ => exact Or.inl (hs'.1.resolve_left (by simp)).2.1.rows

/-- **A transaction** keeps the roles. -/
theorem rowsHold_applyTransaction (hs : Ordered s) (hrows : RowsHold (roleCustody app ledgers) s)
    (hadded : ∀ s' s₁ pre o post t u signer,
      TransactionFrame.apply app env 1 (begun s) = .ok true s' →
        startOperations app env 1 (begun s) = .ok () s₁ → mOperations env = pre ++ o :: post →
          applyOperations app env 2 pre s₁ = .ok false t → AddsSigner app env 2 o t u signer →
            AddedByBank app ledgers signer.pubKey signer.signerType)
    (h : applyTransaction app env s = .ok () s') : RowsHold (roleCustody app ledgers) s' := by
  have hafter := of_wp_ok (wp_applyTransaction_rows hs) h
  rcases hafter with hdb | ⟨t, s₁, u, happly, hstart, hops, hdb⟩
  · exact hrows.of_eq (congrArg _ hdb)
  · have hc : Contained (roleCustody app ledgers) (begun s) :=
      RowsHold.contained ⟨hrows.rows, hrows.free⟩ hs.coherent nofun nofun
    have hbegun : Ordered (begun s) :=
      ⟨hs.contained.newFrames rfl (fun _ hp => hp) rfl rfl, hs.coherent⟩
    have hu := contained_applyOperations hbegun hc hstart
      (fun pre o post t' u' signer => hadded t s₁ pre o post t' u' signer happly hstart) hops
    exact hu.rowsHold.of_eq (congrArg _ hdb)

/-! ## Ledgers -/

theorem beforeTransaction_append {data : LedgerCloseData} {txs : List TransactionEnvelope}
    (h : beforeTransaction app data (txs ++ [env]) s = .ok () s') :
    ∃ t, beforeTransaction app data txs s = .ok () t ∧ applyTransaction app env t = .ok () s' := by
  have hsplit : beforeTransaction app data (txs ++ [env]) = (do
      beforeTransaction app data txs
      applyTransactions app [env]) := by
    have happend : applyTransactions app (txs ++ [env]) = (do
        applyTransactions app txs
        applyTransactions app [env]) := List.forM_append
    rw [beforeTransaction, happend]
    simp only [beforeTransaction, bind_assoc]
  rw [hsplit] at h
  obtain ⟨_, t, hbefore, hlast⟩ := bind_eq_ok.mp h
  obtain ⟨_, t', happly, hnil⟩ := bind_eq_ok.mp hlast
  cases hnil
  exact ⟨t, hbefore, happly⟩

/-- **The transactions of a ledger** keep the roles. -/
theorem rowsHold_beforeTransaction {earlier later : List LedgerCloseData} {data : LedgerCloseData}
    {txs rest : List TransactionEnvelope} (hledgers : ledgers = earlier ++ data :: later)
    (hrun : runLedgers app earlier {} = .ok () s) (hrows : RowsHold (roleCustody app ledgers) s)
    (htxs : data.txs = txs ++ rest) (h : beforeTransaction app data txs s = .ok () t) :
    RowsHold (roleCustody app ledgers) t := by
  have hs : Ordered s := ordered_runLedgers hrun
  induction txs using List.reverseRecOn generalizing rest t with
  | nil =>
    have hfees : wp (beforeTransaction app data [])
        (fun _ t => Contained (roleCustody app ledgers) t) (fun _ _ => True) s := by
      unfold beforeTransaction
      rw [wp_bind, wp_modify, wp_bind, wp_modify, wp_bind]
      refine wp_mono (keepsContained_processFeesSeqNums data.txs _ ?_) (fun _ _ ht => ht.1)
        fun _ _ _ => trivial
      exact RowsHold.contained ⟨hrows.rows, hrows.free⟩ hs.coherent nofun nofun
    exact (of_wp_ok hfees h).rowsHold
  | append_singleton txs env ih =>
    obtain ⟨t', hbefore, happly⟩ := beforeTransaction_append h
    have htxs' : data.txs = txs ++ env :: rest := htxs.trans (List.append_cons _ _ _).symm
    refine rowsHold_applyTransaction
      (of_wp_ok (keepsOrdered_beforeTransaction data txs s hs) hbefore) (ih htxs' hbefore)
      (fun s' s₁ pre o post t u signer hok hstart hops hpre hadds => ?_) happly
    exact ⟨earlier, data, later, txs, env, rest, s, t', s', hledgers, htxs', hrun, hbefore, hok, s₁,
      pre, o, post, t, u, signer, hstart, hops, hpre, hadds, rfl, rfl⟩

/-- **Closing a ledger** keeps the roles. -/
theorem wp_closeLedger_rows {earlier later : List LedgerCloseData} {data : LedgerCloseData}
    (hledgers : ledgers = earlier ++ data :: later)
    (hrun : runLedgers app earlier {} = .ok () s) (hrows : RowsHold (roleCustody app ledgers) s) :
    wp (closeLedger app data) (fun _ t => RowsHold (roleCustody app ledgers) t) (fun _ _ => True)
      s := by
  rw [closeLedger_eq data (List.append_nil data.txs).symm, wp_sqlTransaction, wp_bind]
  refine wp_mono (wp_self _ s) (fun _ t ht => ?_) fun _ _ _ => trivial
  have htxs := rowsHold_beforeTransaction hledgers hrun hrows (List.append_nil _).symm ht
  simp only [applyTransactions, getHeader, setHeader, commitLedger, wp_bind, wp_pure,
    wp_get, wp_updateDelta, wp_ite, wp_throw, wp_set]
  exact ⟨fun _ _ => ⟨fun _ => trivial, fun _ => htxs.of_eq rfl⟩, fun _ => trivial⟩

theorem wp_startNewLedger_roles (app : Application) (ledgers : List LedgerCloseData) :
    wp (startNewLedger app) (fun _ s => Contained (roleCustody app ledgers) s) (fun _ _ => True)
      {} := by
  have hbank : (roleCustody app ledgers).account app.BANK_MASTER_KEY .ACCOUNT_BANK
      { masterWeight := 1 } := ⟨⟨fun _ => rfl, fun _ => rfl⟩, nofun⟩
  have hcommission (hne : app.BANK_MASTER_KEY ≠ app.BANK_COMMISSION_KEY) :
      (roleCustody app ledgers).account app.BANK_COMMISSION_KEY .ACCOUNT_COMMISSION
        { masterWeight := 1 } :=
    ⟨⟨nofun, fun heq => absurd heq.symm hne⟩, fun _ => rfl⟩
  exact wp_mono (wp_startNewLedger hbank hcommission fun _ hid => deletable_of_ne hid)
    (fun _ _ hs => hs.1) fun _ _ he => he

/-- **Main theorem**: the roles stay where they are. -/
theorem roles_contained (app : Application) (ledgers : List LedgerCloseData) :
    wp (runLedgers app ledgers) (fun _ s => Roles app ledgers s) (fun _ _ => True) {} := by
  unfold runLedgers
  rw [wp_bind]
  refine wp_mono (wp_and (wp_startNewLedger_roles app ledgers) (wp_self _ _)) (fun _ s hs => ?_)
    fun _ _ _ => trivial
  obtain ⟨hc, hgenesis⟩ := hs
  refine wp_mono (wp_runInputs hc.rowsHold fun pre data post t heq hpre ht => ?_)
    (fun _ _ ht => ht.roles) fun _ _ he => he
  have hrun : runLedgers app pre {} = .ok () t := bind_eq_ok.mpr ⟨_, s, hgenesis, hpre⟩
  exact wp_closeLedger_rows heq hrun ht

end SmartCore.Transactions
