import SmartCore.Transactions.SetOptions
import SmartCore.Transactions.Steps

/-!
# Authorization

An operation is authorized if distinct signers of its source have signed the transaction, and
their weights reach the threshold that the operation asks for. `checkSignature` looks for them:
it goes through the signatures, and each uses up one of the keys.

The source is the account as it is in the ledger then. The account of the transaction is loaded once,
and only its own operations take back what they change of it. Another operation may delete it, or
store it without signers that it has, and it is checked with those that it had.

**Theorem (`authorized_iff`).** In a transaction that succeeds every operation was authorized when
it was applied, if and only if every merge was, and every operation of the transaction's account
after that was deleted or has lost a signer.

Merges are the other exception: `MergeOpFrame` has a `checkValid` of its own, which does not check
signatures. Anyone can merge an account that has no sub-entries into their own
(`merge_without_signature`).
-/

namespace SmartCore.Transactions

open SmartCore.Ledger TransactionFrame OperationFrame

variable (app : Application) (env : TransactionEnvelope)

/-- Distinct signers of the account have signed, and their weights reach the threshold. -/
def Authorized (account : AccountEntry) (threshold : ℤ) : Prop :=
  ∃ signers : List Signer, signers ≠ [] ∧ signers.Subperm (keyWeights env account) ∧
    (∀ signer ∈ signers, ∃ sig ∈ env.signatures, signs app env sig signer = true) ∧
      threshold ≤ (signers.map (·.weight)).sum

/-! ## The loop over the signatures -/

section Signatures

variable {app env}

/-- `totalWeight` is an `int`, and the weights are unsigned. -/
theorem le_of_le_bmod {needed : ℤ} {total : ℕ} (hneeded : 0 ≤ needed)
    (h : needed ≤ (total : ℤ).bmod (2 ^ 32)) : needed ≤ total := by
  rw [Int.bmod_def] at h
  split at h <;> omega

/-- A key that is found is taken out of the keys. -/
theorem perm_cons_eraseP {p : Signer → Bool} {keys : List Signer} {signer : Signer}
    (h : keys.find? p = some signer) : keys.Perm (signer :: keys.eraseP p) := by
  obtain ⟨hp, before, after, rfl, hbefore⟩ := List.find?_eq_some_iff_append.mp h
  have hnot : ∀ a ∈ before, ¬ p a = true := fun a ha => by simpa using hbefore a ha
  rw [List.eraseP_append_right _ hnot, List.eraseP_cons_of_pos hp]
  exact List.perm_middle

/-- What the loop accepts is the weight of keys that have signed. -/
theorem exists_signers_of_enough {needed : ℤ} (hneeded : 0 ≤ needed)
    (signatures : List DecoratedSignature) (i total : ℕ) (keys : List Signer)
    (h : (checkSignatureLoop app env needed signatures i keys
      ((total : ℤ).bmod (2 ^ 32))).enough = true) :
    ∃ signers : List Signer, signers ≠ [] ∧ signers.Subperm keys ∧
      (∀ signer ∈ signers, ∃ sig ∈ signatures, signs app env sig signer = true) ∧
        needed ≤ total + (signers.map (·.weight)).sum := by
  induction signatures generalizing i total keys with
  | nil => simp [checkSignatureLoop] at h
  | cons sig signatures ih =>
    unfold checkSignatureLoop at h
    cases hfind : keys.find? (signs app env sig) with
    | none =>
      rw [hfind] at h
      obtain ⟨signers, hne, hsub, hsigned, hweight⟩ := ih (i + 1) total keys h
      refine ⟨signers, hne, hsub, fun signer hmem => ?_, hweight⟩
      obtain ⟨sig', hsig', hsigns⟩ := hsigned signer hmem
      exact ⟨sig', List.mem_cons_of_mem _ hsig', hsigns⟩
    | some signer =>
      rw [hfind] at h
      have hsigns : signs app env sig signer = true := List.find?_some hfind
      have hmem : signer ∈ keys := List.mem_of_find?_eq_some hfind
      have htotal : ((total : ℤ).bmod (2 ^ 32) + signer.weight).bmod (2 ^ 32) =
          ((total + signer.weight : ℕ) : ℤ).bmod (2 ^ 32) := by
        rw [Int.bmod_add_bmod]
        rfl
      simp only [htotal] at h
      split at h
      · rename_i hle
        refine ⟨[signer], by simp, List.singleton_subperm_iff.mpr hmem, fun s hs => ?_, ?_⟩
        · rw [List.mem_singleton.mp hs]
          exact ⟨sig, by simp, hsigns⟩
        · have := le_of_le_bmod hneeded hle
          simpa using this
      · -- the signer is used up, so the others are among the rest of the keys
        obtain ⟨signers, hne, hsub, hsigned, hweight⟩ := ih (i + 1) (total + signer.weight)
          (keys.eraseP (signs app env sig)) h
        refine ⟨signer :: signers, by simp, ?_, fun s hs => ?_, ?_⟩
        · exact ((List.subperm_cons signer).mpr hsub).trans (perm_cons_eraseP hfind).symm.subperm
        · rcases List.mem_cons.mp hs with rfl | hs
          · exact ⟨sig, by simp, hsigns⟩
          · obtain ⟨sig', hsig', hsigns'⟩ := hsigned s hs
            exact ⟨sig', List.mem_cons_of_mem _ hsig', hsigns'⟩
        · simp only [List.map_cons, List.sum_cons]
          push_cast at hweight ⊢
          omega

end Signatures

theorem getNeededThreshold_nonneg (source : AccountEntry) (body : OperationBody) :
    0 ≤ getNeededThreshold source body := by
  cases body with
  | SET_OPTIONS op =>
    simp only [getNeededThreshold]
    split <;> exact Int.natCast_nonneg _
  | _ => exact Int.natCast_nonneg _

/-! ## The account in memory -/

section Stored

variable {app env} {a row : AccountEntry}

/-- The account in memory is that of the row, except that it may have fewer signers. -/
structure AsStored (a row : AccountEntry) : Prop where
  id : a.accountID = row.accountID
  type : a.accountType = row.accountType
  thresholds : a.thresholds = row.thresholds
  signers : (a.signers.map weightedKey).Subperm (row.signers.map weightedKey)

theorem asStored_ofRow (row : Row AccountEntry) (b : Bool) :
    AsStored (AccountFrame.ofRow row b).mAccountEntry row.entry := by
  refine ⟨rfl, rfl, rfl, ?_⟩
  unfold AccountFrame.ofRow
  dsimp only
  split_ifs
  · exact List.Subperm.refl _
  · exact List.nil_subperm

theorem AsStored.keyWeights (h : AsStored a row) :
    ((keyWeights env a).map weightedKey).Subperm ((keyWeights env row).map weightedKey) := by
  unfold TransactionFrame.keyWeights
  rw [h.id, h.type, h.thresholds, List.map_append, List.map_append]
  exact (List.subperm_append_left _).mpr h.signers

theorem AsStored.getNeededThreshold (h : AsStored a row) (body : OperationBody) :
    getNeededThreshold a body = getNeededThreshold row body := by
  unfold OperationFrame.getNeededThreshold
  rw [h.thresholds]

/-- Whoever has signed for the account in memory has signed for that of the row. -/
theorem Authorized.of_asStored {threshold : ℤ} (h : Authorized app env a threshold)
    (hstored : AsStored a row) : Authorized app env row threshold := by
  obtain ⟨signers, hne, hsub, hsigned, hweight⟩ := h
  obtain ⟨l, hl, hlsub⟩ := hsub
  have hmap : (signers.map weightedKey).Subperm ((keyWeights env a).map weightedKey) :=
    ⟨l.map weightedKey, hl.map _, hlsub.map _⟩
  obtain ⟨keys, hperm, hkeys⟩ := hmap.trans hstored.keyWeights
  obtain ⟨signers', hsub', rfl⟩ := List.sublist_map_iff.mp hkeys
  refine ⟨signers', fun hnil => hne ?_, hsub'.subperm, fun signer hsigner => ?_, ?_⟩
  · rw [hnil] at hperm
    exact List.map_eq_nil_iff.mp hperm.nil_eq.symm
  · obtain ⟨signer', hsigner', hkey⟩ := List.mem_map.mp (hperm.subset (List.mem_map_of_mem hsigner))
    obtain ⟨sig, hsig, hsigns⟩ := hsigned signer' hsigner'
    refine ⟨sig, hsig, ?_⟩
    have hpubKey : signer'.pubKey = signer.pubKey := congrArg Prod.fst hkey
    unfold signs at hsigns ⊢
    rwa [← hpubKey]
  · have hsum := (hperm.map Prod.snd).sum_eq
    rw [List.map_map, List.map_map] at hsum
    have hsum : (signers'.map (·.weight)).sum = (signers.map (·.weight)).sum := hsum
    rwa [hsum]

end Stored

/-! ## One operation -/

/-- The operation, applied after `t`, is authorized by its source as it is in the ledger then. -/
def AuthorizedAt (op : Operation) (t : LedgerState) : Prop :=
  ∃ row : Row AccountEntry, t.db.accounts[getSourceID env op]? = some row ∧
    Authorized app env row.entry (getNeededThreshold row.entry op.body)

/-- The account is deleted, or loses a signer, between `t` and `t'`. -/
def Loses (id : AccountID) (t t' : LedgerState) : Prop :=
  ∃ row : Row AccountEntry, t.db.accounts[id]? = some row ∧
    ¬ ∃ row' : Row AccountEntry, t'.db.accounts[id]? = some row' ∧
      (row.entry.signers.map weightedKey).Subperm (row'.entry.signers.map weightedKey)

/-- The account of the transaction sets its options. -/
def SetsOptions (op : Operation) : Prop :=
  getSourceID env op = env.tx.sourceAccount ∧ ∃ options, op.body = .SET_OPTIONS options

/-- One of the operations `ops` has taken something from the account of the transaction, without
setting its options. -/
def Taken (d : ℕ) (s : LedgerState) (ops : List (Operation × Option OperationFee)) : Prop :=
  ∃ pre o post t t', ops = pre ++ o :: post ∧ applyOperations app env d pre s = .ok false t ∧
    applyOperations app env d (pre ++ [o]) s = .ok false t' ∧ ¬ SetsOptions env o.1 ∧
      Loses env.tx.sourceAccount t t'

section Operations

variable {app env} {d : ℕ} {op : Operation} {fee : Option OperationFee} {s s' s₁ t u : LedgerState}
  {o : Operation × Option OperationFee} {pre post : List (Operation × Option OperationFee)}

theorem Taken.append (h : Taken app env d s pre) (post : List (Operation × Option OperationFee)) :
    Taken app env d s (pre ++ post) := by
  obtain ⟨before, o, after, t, t', rfl, hbefore⟩ := h
  exact ⟨before, o, after ++ post, t, t', by rw [List.append_assoc, List.cons_append], hbefore⟩

/-- The check of the source passes only if the source has signed. -/
theorem authorized_of_enough {source : AccountEntry}
    (h : (operationCheck app env op source).enough = true) :
    Authorized app env source (getNeededThreshold source op.body) := by
  obtain ⟨signers, hne, hsub, hsigned, hweight⟩ := exists_signers_of_enough
    (getNeededThreshold_nonneg source op.body) env.signatures 0 0 (keyWeights env source) h
  exact ⟨signers, hne, hsub, hsigned, by simpa using hweight⟩

/-! ### What it is checked with -/

/-- The account in hand is that of the transaction; and as long as nothing has been taken from it, it
is that of the row. -/
def Held (app : Application) (env : TransactionEnvelope) (d : ℕ) (s : LedgerState)
    (ops : List (Operation × Option OperationFee)) (t : LedgerState) : Prop :=
  ∀ f, t.mSigningAccount = some f → f.getID = env.tx.sourceAccount ∧ (¬ Taken app env d s ops →
    ∃ row : Row AccountEntry, t.db.accounts[env.tx.sourceAccount]? = some row ∧
      AsStored f.mAccountEntry row.entry)

/-- **One operation** that is checked: with the account in hand or with that of the ledger. -/
theorem authorizedAt_of_ran {source : AccountFrame} {t₂ v : LedgerState}
    (hran : Ran app env d o t source t₂ v u) (hheld : Held app env d s₁ pre t)
    (hmerge : ¬ IsMerge o.1)
    (htaken : getSourceID env o.1 = env.tx.sourceAccount → ¬ Taken app env d s₁ pre) :
    AuthorizedAt app env o.1 t := by
  obtain ⟨-, henough, -⟩ := hran.check.resolve_left fun h => hmerge h.1
  have hrow : ∃ row : Row AccountEntry, t.db.accounts[getSourceID env o.1]? = some row ∧
      AsStored source.mAccountEntry row.entry := by
    rcases hran.loaded with hsigning | ⟨-, row, b, hrow, rfl⟩
    · obtain ⟨hsource, hstored⟩ := hheld source hsigning
      have hsame : getSourceID env o.1 = env.tx.sourceAccount := hran.id.symm.trans hsource
      rw [hsame]
      exact hstored (htaken hsame)
    · exact ⟨row, hrow, asStored_ofRow row b⟩
  obtain ⟨row, hrow, hstored⟩ := hrow
  refine ⟨row, hrow, ?_⟩
  rw [← hstored.getNeededThreshold]
  exact (authorized_of_enough henough).of_asStored hstored

/-! ### What it leaves -/

/-- What an operation leaves of an account whose options it does not set, and which it does not merge:
its type and thresholds, and in memory its signers. -/
structure SameOptions (id : AccountID) (a : AccountEntry) (source : AccountFrame)
    (v : LedgerState) : Prop where
  row : ∀ row : Row AccountEntry, v.db.accounts[id]? = some row → row.entry.accountID = id ∧
    row.entry.accountType = a.accountType ∧ row.entry.thresholds = a.thresholds
  source : ∀ f, v.mSourceAccount = some f → f.getID = source.getID ∧
    (source.getID = id → f.mAccountEntry.accountType = a.accountType ∧
      f.mAccountEntry.thresholds = a.thresholds ∧
        f.mAccountEntry.signers = source.mAccountEntry.signers)

theorem sameOptions_of_programs {source : AccountFrame} {id : AccountID} {row : Row AccountEntry}
    {v : LedgerState} {r : OperationResultTr} (hc : Contained anyCustody s) (h : Coherent s)
    (hsource : s.mSourceAccount = some source) (hrow : s.db.accounts[id]? = some row)
    (hstored : source.getID = id → AsStored source.mAccountEntry row.entry)
    (hop : source.getID = id → ¬ IsMerge op ∧ ¬ ∃ options, op.body = .SET_OPTIONS options)
    (hvalid : OperationFrame.doCheckValid app env op fee s = .ok () u)
    (happly : OperationFrame.doApply app env d op fee u = .ok r v) :
    SameOptions id row.entry source v := by
  -- the account may be of that type and have those thresholds only
  let c : Custody := {
    account := fun id' accountType thresholds => id' = id →
      accountType = row.entry.accountType ∧ thresholds = row.entry.thresholds
    source := source.getID
    sourceSigners := fun signers => source.getID = id → signers = source.mAccountEntry.signers }
  have hcustody : InCustody c s := by
    refine .of_coherent h (fun id' row' hrow' => ?_) (fun id' hnone _ _ _ hid => ?_) fun f hf => ?_
    · have hkey := (hc.rows id' row' hrow').1
      refine ⟨hkey, fun hid => ?_, fun _ _ => trivial⟩
      rw [← hkey, show row'.entry.accountID = id from hid, hrow] at hrow'
      cases hrow'
      exact ⟨rfl, rfl⟩
    · rw [hid, hrow] at hnone
      cases hnone
    · obtain rfl := Option.some.inj (hsource.symm.trans hf)
      refine ⟨⟨fun hid => ?_, fun _ _ => trivial⟩, rfl, fun _ => rfl⟩
      exact ⟨(hstored hid).type, (hstored hid).thresholds⟩
  have hadmits : Admits c op := by
    refine ⟨trivial, fun _ _ => trivial, fun destination hbody _ _ _ hid => ?_,
      fun options hbody => ⟨fun _ _ _ _ hid => ?_, fun _ hid => ?_, fun _ _ => trivial⟩,
      fun _ _ => trivial⟩
    · exact absurd ⟨destination, hbody⟩ (hop hid).1
    · exact absurd ⟨options, hbody⟩ (hop hid).2
    · exact absurd ⟨options, hbody⟩ (hop hid).2
  have hkept := (kept_of_programs hcustody hadmits hvalid happly).custody
  refine ⟨fun row' hrow' => ?_, fun f hf => ?_⟩
  · obtain ⟨hkey, hheld, -⟩ := hkept.rows id row' hrow'
    exact ⟨hkey, hheld hkey⟩
  · obtain ⟨⟨hheld, -⟩, hid, hsigners⟩ := hkept.source f hf
    refine ⟨hid, fun hsame => ?_⟩
    obtain ⟨htype, hthresholds⟩ := hheld (hid.trans hsame)
    exact ⟨htype, hthresholds, hsigners hsame⟩

/-- The account sets its options: it is stored as it is in memory. -/
theorem asStored_of_setOptions {source : AccountFrame} {options : SetOptionsOp}
    {row : Row AccountEntry} {v : LedgerState} {r : OperationResultTr}
    (hbody : op.body = .SET_OPTIONS options) (hsource : s.mSourceAccount = some source)
    (hrow : s.db.accounts[source.getID]? = some row)
    (hstored : AsStored source.mAccountEntry row.entry)
    (hvalid : OperationFrame.doCheckValid app env op fee s = .ok () u)
    (happly : OperationFrame.doApply app env d op fee u = .ok r v) :
    ∃ row' : Row AccountEntry, v.db.accounts[source.getID]? = some row' ∧
      ∀ f, v.mSourceAccount = some f → AsStored f.mAccountEntry row'.entry := by
  obtain ⟨g, hset⟩ := optionsSet_of_programs hbody hsource hvalid happly
  obtain ⟨row₀, lastmodified, hrow₀, hput, -⟩ := hset.stored.row
  rw [hset.owned.id, hrow] at hrow₀
  obtain rfl := Option.some.inj hrow₀
  rw [hset.owned.id] at hput
  refine ⟨_, hput, fun f hf => ?_⟩
  obtain ⟨g', hg', hentry⟩ := hset.source
  obtain rfl := Option.some.inj (hf.symm.trans hg')
  rw [hentry]
  refine ⟨rfl, rfl, rfl, ?_⟩
  show (g.mAccountEntry.signers.map weightedKey).Subperm ((g.storedSigners row).map weightedKey)
  unfold AccountFrame.storedSigners
  split_ifs with hupdate
  · rw [map_weightedKey_mergeSigners]
  · cases hsigner : options.signer with
    | none =>
      rw [(hset.unsigned hsigner).signers]
      exact hstored.signers
    | some signer => exact absurd (hset.signed signer hsigner).1 hupdate

/-- The account is merged: its row is gone. -/
theorem row_of_merge {source : AccountFrame} {v : LedgerState} {r : OperationResultTr}
    (hmerge : IsMerge op) (hsource : s.mSourceAccount = some source)
    (hvalid : OperationFrame.doCheckValid app env op fee s = .ok () u)
    (happly : OperationFrame.doApply app env d op fee u = .ok r v) :
    v.db.accounts[source.getID]? = none := by
  obtain ⟨destination, hbody⟩ := hmerge
  rw [OperationFrame.doCheckValid, hbody] at hvalid
  have hsame : wp (MergeOpFrame.doCheckValid app op.sourceAccount destination)
      (fun _ t => t = s) (fun _ _ => True) s := by
    unfold MergeOpFrame.doCheckValid
    cases op.sourceAccount with
    | none => exact trivial
    | some sourceAccount => simp [wp_bind, wp_failIf]
  obtain rfl : u = s := of_wp_ok (Q := fun _ t => t = s) hsame hvalid
  rw [OperationFrame.doApply, hbody] at happly
  obtain ⟨_, v', happly, hpure⟩ := bind_eq_ok.mp happly
  cases hpure
  have hgone : wp (MergeOpFrame.doApply d destination)
      (fun _ t => t.db.accounts[source.getID]? = none) (fun _ _ => True) u := by
    rw [MergeOpFrame.doApply, wp_bind]
    refine wp_mono (WpElsewhere.loadAccount d destination u) (fun o t ht => ?_) fun _ _ _ => trivial
    have hsource : t.mSourceAccount = some source := ht.mSourceAccount.trans hsource
    cases o with
    | none => exact trivial
    | some otherAccount =>
      simp only [getSourceAccount, wp_bind, wp_get, hsource, wp_deref, wp_failIf]
      refine ⟨fun f hf => ⟨fun _ => trivial, fun _ => ⟨fun _ => trivial, fun _ => ?_⟩⟩,
        fun _ => trivial⟩
      obtain rfl := Option.some.inj hf
      refine wp_mono (wp_trivial _) (fun _ w _ => ?_) fun _ _ _ => trivial
      simp only [AccountFrame.storeDelete, flushCachedEntry, wp_bind, wp_modify, wp_updateDelta,
        wp_pure]
      exact ⟨fun _ _ => Std.ExtTreeMap.getElem?_erase_self, fun _ => trivial⟩
  exact of_wp_ok (Q := fun _ t => t.db.accounts[source.getID]? = none) hgone happly

section Step

variable {source f f' : AccountFrame} {t₂ v : LedgerState} {row : Row AccountEntry}

/-- An operation of another account, that takes nothing from that of the transaction. -/
theorem asStored_of_other (hran : Ran app env d o t source t₂ v u)
    (hother : getSourceID env o.1 ≠ env.tx.sourceAccount)
    (hrow : t.db.accounts[env.tx.sourceAccount]? = some row) (hc : row.entry.accountID =
      env.tx.sourceAccount) (hstored : AsStored f.mAccountEntry row.entry)
    (hloses : ¬ Loses env.tx.sourceAccount t v) :
    ∃ row' : Row AccountEntry, v.db.accounts[env.tx.sourceAccount]? = some row' ∧
      AsStored f.mAccountEntry row'.entry := by
  obtain ⟨t₃, r, hvalid, happly⟩ := hran.apply
  have hsource : source.getID ≠ env.tx.sourceAccount := hran.id ▸ hother
  have hrow₂ : t₂.db.accounts[env.tx.sourceAccount]? = some row := by rw [hran.db]; exact hrow
  obtain ⟨row', hrow', hkeys⟩ := not_not.mp fun hnot => hloses ⟨row, hrow, hnot⟩
  obtain ⟨hkey, htype, hthresholds⟩ := (sameOptions_of_programs hran.contained hran.coherent
    hran.mSourceAccount hrow₂ (fun h => absurd h hsource) (fun h => absurd h hsource) hvalid
      happly).row row' hrow'
  exact ⟨row', hrow', hstored.id.trans (hc.trans hkey.symm), hstored.type.trans htype.symm,
    hstored.thresholds.trans hthresholds.symm, hstored.signers.trans hkeys⟩

/-- An operation of the account itself, that sets its options or takes nothing from it. -/
theorem asStored_of_own (hran : Ran app env d o t source t₂ v u)
    (hown : getSourceID env o.1 = env.tx.sourceAccount)
    (hrow : t.db.accounts[env.tx.sourceAccount]? = some row)
    (hstored : AsStored source.mAccountEntry row.entry) (hf' : v.mSourceAccount = some f')
    (hloses : SetsOptions env o.1 ∨ ¬ Loses env.tx.sourceAccount t v) :
    ∃ row' : Row AccountEntry, v.db.accounts[env.tx.sourceAccount]? = some row' ∧
      AsStored f'.mAccountEntry row'.entry := by
  obtain ⟨t₃, r, hvalid, happly⟩ := hran.apply
  have hid : source.getID = env.tx.sourceAccount := hran.id.trans hown
  have hrow₂ : t₂.db.accounts[source.getID]? = some row := by rw [hid, hran.db]; exact hrow
  by_cases hoptions : ∃ options, o.1.body = .SET_OPTIONS options
  · obtain ⟨options, hbody⟩ := hoptions
    obtain ⟨row', hrow', hnow⟩ := asStored_of_setOptions hbody hran.mSourceAccount hrow₂ hstored
      hvalid happly
    rw [hid] at hrow'
    exact ⟨row', hrow', hnow f' hf'⟩
  · obtain ⟨row', hrow', hkeys⟩ := not_not.mp fun hnot =>
      hloses.resolve_left (fun h => hoptions h.2) ⟨row, hrow, hnot⟩
    have hmerge : ¬ IsMerge o.1 := fun hmerge => by
      have hgone := row_of_merge hmerge hran.mSourceAccount hvalid happly
      rw [hid, hrow'] at hgone
      cases hgone
    have hnow := sameOptions_of_programs hran.contained hran.coherent hran.mSourceAccount hrow₂
      (fun _ => hstored) (fun _ => ⟨hmerge, hoptions⟩) hvalid happly
    rw [hid] at hnow
    obtain ⟨hkey, htype, hthresholds⟩ := hnow.row row' hrow'
    obtain ⟨hid', hheld⟩ := hnow.source f' hf'
    obtain ⟨htype', hthresholds', hsigners⟩ := hheld hid
    refine ⟨row', hrow', (hid'.trans hid).trans hkey.symm, htype'.trans htype.symm,
      hthresholds'.trans hthresholds.symm, ?_⟩
    rw [hsigners]
    exact hstored.signers.trans hkeys

/-- **One operation** leaves the account in hand as it is in its row, unless it takes something. -/
theorem held_step {t' : LedgerState} (hc : Contained anyCustody t)
    (hpre : applyOperations app env d pre s₁ = .ok false t)
    (hlast : applyOperations app env d (pre ++ [o]) s₁ = .ok false t')
    (hop : OperationStep app env d o true t u t') (hran : Ran app env d o t source t₂ v u)
    (hheld : Held app env d s₁ pre t) : Held app env d s₁ (pre ++ [o]) t' := by
  obtain ⟨deltas, rfl⟩ := hop.after
  have hdb : u.db = v.db := hran.rest.1
  intro f' hf'
  have hf' : u.mSigningAccount = some f' := hf'
  rw [hran.mSigningAccount] at hf'
  obtain ⟨f, hf, hf'⟩ := Option.bind_eq_some_iff.mp hf'
  obtain ⟨hid, hstored⟩ := hheld f hf
  -- nothing is taken by this operation either
  have huntaken (htaken : ¬ Taken app env d s₁ (pre ++ [o])) : ¬ Taken app env d s₁ pre ∧
      (SetsOptions env o.1 ∨ ¬ Loses env.tx.sourceAccount t v) := by
    refine ⟨fun h => htaken (h.append [o]), or_iff_not_imp_left.mpr fun hsets hloses => htaken ?_⟩
    obtain ⟨row, hrow, hnot⟩ := hloses
    refine ⟨pre, o, [], t, _, rfl, hpre, hlast, hsets, row, hrow, fun hsurvives => hnot ?_⟩
    rw [← hdb]
    exact hsurvives
  show f'.getID = _ ∧ (_ → ∃ row : Row AccountEntry, u.db.accounts[_]? = some row ∧ _)
  rw [hdb]
  split_ifs at hf' with howner
  · -- its own operation: the source is the account in hand, and it is taken back
    have hown : getSourceID env o.1 = env.tx.sourceAccount := howner.symm.trans hid
    have hsource : t.mSigningAccount = some source :=
      hran.loaded.resolve_right fun h => h.1 f hf howner
    obtain rfl := Option.some.inj (hf.symm.trans hsource)
    refine ⟨(hran.kept.custody.source f' hf').2.1.trans hown, fun htaken => ?_⟩
    obtain ⟨hbefore, hloses⟩ := huntaken htaken
    obtain ⟨row, hrow, hstored⟩ := hstored hbefore
    exact asStored_of_own hran hown hrow hstored hf' hloses
  · obtain rfl := Option.some.inj hf'
    have hother : getSourceID env o.1 ≠ env.tx.sourceAccount := fun h => howner (hid.trans h.symm)
    refine ⟨hid, fun htaken => ?_⟩
    obtain ⟨hbefore, hloses⟩ := huntaken htaken
    obtain ⟨row, hrow, hstored⟩ := hstored hbefore
    exact asStored_of_other hran hother hrow (hc.rows _ row hrow).1 hstored
      (hloses.resolve_left fun h => hother h.1)

/-- Before the first operation the account has been loaded. -/
theorem held_startOperations (hs : Ordered s) (hstart : startOperations app env d s = .ok () s₁) :
    Held app env (d + 1) s₁ [] s₁ := by
  obtain ⟨account, t, hload, rfl⟩ := ok_of_startOperations hstart
  obtain ⟨_, s₂, hreset, hsigning⟩ := bind_eq_ok.mp hload
  cases hreset
  obtain ⟨u, hloads, -, rfl⟩ := ok_of_loadSigningAccount hsigning rfl
  have hcoherent : Coherent { s with
      mSigningAccount := none
      mUsedSignatures := List.replicate env.signatures.length false } := hs.coherent
  obtain ⟨⟨b, hrow⟩, hloaded⟩ :=
    of_wp_ok (AccountFrame.wp_loadAccount_row hcoherent d env.tx.sourceAccount) hloads
  obtain ⟨row, hrow, hf⟩ := Option.map_eq_some_iff.mp hrow.symm
  intro f hsome
  obtain rfl : account = f := Option.some.inj hsome
  refine ⟨?_, fun _ => ⟨row, ?_, ?_⟩⟩
  · rw [← hf]
    exact (hs.contained.rows _ row hrow).1
  · show u.db.accounts[env.tx.sourceAccount]? = some row
    rw [hloaded.db]
    exact hrow
  · rw [← hf]
    exact asStored_ofRow row b

theorem held_applyOperations {ops : List (Operation × Option OperationFee)} (hs : Ordered s)
    (hstart : startOperations app env d s = .ok () s₁)
    (hops : applyOperations app env (d + 1) ops s₁ = .ok false t) :
    Held app env (d + 1) s₁ ops t := by
  obtain ⟨hc, hin⟩ := contained_startOperations hs.contained hs.coherent hstart
  refine applyOperations_induct_ok (held_startOperations hs hstart) ?_ hops
  intro pre o t u t' hpre hlast hop ih
  obtain ⟨hct, hint⟩ := inside_applyOperations hc hin hpre
  obtain ⟨source, t₂, v, hran⟩ := hop.ran hct hint
  exact held_step hct hpre hlast hop hran ih

end Step

end Operations

/-! ## All operations -/

/-- Each operation of a transaction that `which` picks, by the state in which the operations start and
those before it, is authorized when it is applied. -/
def AllAuthorized
    (which : LedgerState → List (Operation × Option OperationFee) → Operation → Prop) (d : ℕ)
    (s : LedgerState) : Prop :=
  ∃ s₁, startOperations app env d s = .ok () s₁ ∧
    ∀ pre op fee post, mOperations env = pre ++ (op, fee) :: post →
      ∃ t, applyOperations app env (d + 1) pre s₁ = .ok false t ∧
        (which s₁ pre op → AuthorizedAt app env op t)

/-- A merge, or an operation of the account of the transaction after something was taken from it. -/
def Unchecked (d : ℕ) (s₁ : LedgerState) (pre : List (Operation × Option OperationFee))
    (op : Operation) : Prop :=
  IsMerge op ∨ getSourceID env op = env.tx.sourceAccount ∧ Taken app env (d + 1) s₁ pre

/-- **Authorization.** Whenever a transaction succeeds: every operation, of every kind and with
every source, was authorized by its source as it was in the ledger when the operation was applied, if
and only if those that are unchecked were. Without a merge, and with nothing taken from the account of
the transaction, all were. -/
theorem authorized_iff (d : ℕ) (s s' : LedgerState) (hs : Ordered s)
    (h : TransactionFrame.apply app env d s = .ok true s') :
    AllAuthorized app env (fun _ _ _ => True) d s ↔
      AllAuthorized app env (Unchecked app env d) d s := by
  obtain ⟨s₁, u, hstart, hops⟩ := applyOperations_of_apply h
  constructor
  · intro hall
    obtain ⟨s₂, hstart₂, hall⟩ := hall
    refine ⟨s₂, hstart₂, fun pre op fee post hsplit => ?_⟩
    obtain ⟨t, hpre, hop⟩ := hall pre op fee post hsplit
    exact ⟨t, hpre, fun _ => hop trivial⟩
  · intro hunchecked
    obtain ⟨s₂, hstart₂, hunchecked⟩ := hunchecked
    cases hstart.symm.trans hstart₂
    refine ⟨s₁, hstart, fun pre op fee post hsplit => ?_⟩
    rw [hsplit] at hops
    obtain ⟨t, u', t', hpre, hop⟩ := operationStep_of_append hops
    refine ⟨t, hpre, fun _ => ?_⟩
    by_cases hwhich : Unchecked app env d s₁ pre op
    · obtain ⟨t₂, hpre₂, hauthorized⟩ := hunchecked pre op fee post hsplit
      cases hpre.symm.trans hpre₂
      exact hauthorized hwhich
    · obtain ⟨hmerge, htaken⟩ := not_or.mp hwhich
      obtain ⟨hc, hin⟩ := contained_startOperations hs.contained hs.coherent hstart
      obtain ⟨hct, hint⟩ := inside_applyOperations hc hin hpre
      obtain ⟨source, t₂, v, hran⟩ := hop.ran hct hint
      exact authorizedAt_of_ran hran (held_applyOperations hs hstart hpre) hmerge fun hsource h =>
        htaken ⟨hsource, h⟩

/-! ### Examples -/

open LedgerManager

/-- The bank creates the accounts 5 and 6. -/
def createTwo : LedgerCloseData where
  closeTime := 10
  txs :=
    [signedBy 1 1 1 [⟨none, .SET_OPTIONS { signer := some ⟨11, 1, 0⟩ }⟩] [.opFEE_NONE],
      signedBy 11 1 2 [⟨none, .CREATE_ACCOUNT ⟨5, .ACCOUNT_ANONYMOUS_USER, ⟨.native, 0⟩⟩⟩,
        ⟨none, .CREATE_ACCOUNT ⟨6, .ACCOUNT_ANONYMOUS_USER, ⟨.native, 0⟩⟩⟩]
        [.opFEE_NONE, .opFEE_NONE]]

/-- The account 6 merges the account 5 into itself. -/
def mergeInto6 : TransactionEnvelope :=
  signedBy 6 6 1 [⟨some 5, .ACCOUNT_MERGE 6⟩] [.opFEE_NONE]

theorem authorized_iff_createTwo :
    ∃ s s', runLedgers exampleBank [createTwo] {} = .ok () s ∧
      TransactionFrame.apply exampleBank mergeInto6 0 s = .ok true s' ∧
      (AllAuthorized exampleBank mergeInto6 (fun _ _ _ => True) 0 s ↔
        AllAuthorized exampleBank mergeInto6 (Unchecked exampleBank mergeInto6 0) 0 s) := by
  have hrun : returns (runLedgers exampleBank [createTwo]) (fun _ s =>
      returns (TransactionFrame.apply exampleBank mergeInto6 0) (fun ok _ => ok) s) {} = true := by
    decide +kernel
  obtain ⟨_, s, hs, hrun⟩ := exists_of_returns hrun
  obtain ⟨_, s', hs', rfl⟩ := exists_of_returns hrun
  exact ⟨s, s', hs, hs', authorized_iff exampleBank mergeInto6 0 s s' (ordered_runLedgers hs) hs'⟩

/-- And the account 5 leaves its signatures to the key 8. -/
def handOver : LedgerCloseData where
  closeTime := 20
  txs := [⟨{ sourceAccount := 1, fee := 0, seqNum := 3, operations :=
    [⟨some 5, .SET_OPTIONS { masterWeight := some 0, signer := some ⟨8, 1, 0⟩ }⟩] },
    [⟨11, 11⟩, ⟨5, 5⟩], [.opFEE_NONE]⟩]

/-- The account 5 is merged into 6, is created again by 6, and sets its options. -/
def mergeAndReturn : TransactionEnvelope where
  tx := { sourceAccount := 5, fee := 0, seqNum := 1, operations :=
    [⟨some 5, .ACCOUNT_MERGE 6⟩,
      ⟨some 6, .CREATE_ACCOUNT ⟨5, .ACCOUNT_ANONYMOUS_USER, ⟨.native, 0⟩⟩⟩,
      ⟨none, .SET_OPTIONS {}⟩] }
  signatures := [⟨8, 8⟩, ⟨6, 6⟩]
  operationFees := [.opFEE_NONE, .opFEE_NONE, .opFEE_NONE]

/-- An operation whose source has one key, which has not signed. -/
theorem not_allAuthorized {d : ℕ} {s s₁ t : LedgerState}
    {pre post : List (Operation × Option OperationFee)} {op : Operation}
    {fee : Option OperationFee} {key : Signer} (hstart : startOperations app env d s = .ok () s₁)
    (hsplit : mOperations env = pre ++ (op, fee) :: post)
    (hpre : applyOperations app env (d + 1) pre s₁ = .ok false t)
    (hkeys : (t.db.accounts[getSourceID env op]?.map fun row : Row AccountEntry =>
      keyWeights env row.entry) = some [key])
    (hkey : ∀ sig ∈ env.signatures, ¬ signs app env sig key = true) :
    ¬ AllAuthorized app env (fun _ _ _ => True) d s := by
  rintro ⟨s₂, hstart₂, hall⟩
  cases hstart.symm.trans hstart₂
  obtain ⟨t₂, hpre₂, hauthorized⟩ := hall pre op fee post hsplit
  cases hpre.symm.trans hpre₂
  obtain ⟨row, hrow, signers, hne, hsub, hsigned, -⟩ := hauthorized trivial
  rw [hrow, Option.map_some, Option.some.injEq] at hkeys
  rw [hkeys] at hsub
  obtain ⟨signer, hsigner⟩ := List.exists_mem_of_ne_nil signers hne
  obtain rfl : signer = key := List.mem_singleton.mp (hsub.subset hsigner)
  obtain ⟨sig, hsig, hsigns⟩ := hsigned _ hsigner
  exact hkey sig hsig hsigns

/-- The account 6 merges the account 5 into itself: the transaction succeeds, the account 5 is gone,
and it has signed nothing. And with the signatures that it has left to the key 8, the account 5 is
merged, and sets its options when it is there again, with a key that has not signed. -/
theorem merge_without_signature :
    (∃ s s', runLedgers exampleBank [createTwo] {} = .ok () s ∧ 5 ∈ s.db.accounts ∧
      TransactionFrame.apply exampleBank mergeInto6 0 s = .ok true s' ∧ 5 ∉ s'.db.accounts ∧
      ¬ AllAuthorized exampleBank mergeInto6 (fun _ _ _ => True) 0 s) ∧
    ∃ s s', runLedgers exampleBank [createTwo, handOver] {} = .ok () s ∧
      TransactionFrame.apply exampleBank mergeAndReturn 0 s = .ok true s' ∧
      ¬ AllAuthorized exampleBank mergeAndReturn (fun _ _ _ => True) 0 s := by
  have hrun : returns (runLedgers exampleBank [createTwo]) (fun _ s =>
      (decide (5 ∈ s.db.accounts) &&
      returns (TransactionFrame.apply exampleBank mergeInto6 0)
        (fun ok s' => ok && decide (5 ∉ s'.db.accounts)) s) &&
      returns (startOperations exampleBank mergeInto6 0) (fun _ s₁ =>
        decide ((s₁.db.accounts[5]?.map fun row : Row AccountEntry =>
          keyWeights mergeInto6 row.entry) = some [⟨5, 1, 0⟩])) s) {} = true := by
    decide +kernel
  have hreturn : returns (runLedgers exampleBank [createTwo, handOver]) (fun _ s =>
      returns (TransactionFrame.apply exampleBank mergeAndReturn 0) (fun ok _ => ok) s &&
      returns (startOperations exampleBank mergeAndReturn 0) (fun _ s₁ =>
        returns (applyOperations exampleBank mergeAndReturn 1 ((mOperations mergeAndReturn).take 2))
          (fun failed t => !failed && decide ((t.db.accounts[5]?.map fun row : Row AccountEntry =>
            keyWeights mergeAndReturn row.entry) = some [⟨5, 1, 0⟩])) s₁) s) {} = true := by
    decide +kernel
  constructor
  · obtain ⟨_, s, hs, hrun⟩ := exists_of_returns hrun
    simp only [Bool.and_eq_true, decide_eq_true_eq] at hrun
    obtain ⟨⟨hvictim, hrun⟩, hstart⟩ := hrun
    obtain ⟨_, s', hs', hrun⟩ := exists_of_returns hrun
    simp only [Bool.and_eq_true, decide_eq_true_eq] at hrun
    obtain ⟨rfl, hgone⟩ := hrun
    obtain ⟨_, s₁, hstart, hkeys⟩ := exists_of_returns hstart
    have hsplit : mOperations mergeInto6 = [] ++
        [(⟨some 5, .ACCOUNT_MERGE 6⟩, some .opFEE_NONE)] := rfl
    exact ⟨s, s', hs, hvictim, hs', hgone, not_allAuthorized exampleBank mergeInto6 hstart hsplit rfl
      (of_decide_eq_true hkeys) (by decide)⟩
  · obtain ⟨_, s, hs, hrun⟩ := exists_of_returns hreturn
    obtain ⟨hrun, hstart⟩ := Bool.and_eq_true_iff.mp hrun
    obtain ⟨_, s', hs', rfl⟩ := exists_of_returns hrun
    obtain ⟨_, s₁, hstart, hrun⟩ := exists_of_returns hstart
    obtain ⟨failed, t, hpre, hrun⟩ := exists_of_returns hrun
    simp only [Bool.and_eq_true, Bool.not_eq_true', decide_eq_true_eq] at hrun
    obtain ⟨rfl, hkeys⟩ := hrun
    have hsplit : mOperations mergeAndReturn = (mOperations mergeAndReturn).take 2 ++
        [(⟨none, .SET_OPTIONS {}⟩, some .opFEE_NONE)] := rfl
    exact ⟨s, s', hs, hs', not_allAuthorized exampleBank mergeAndReturn hstart hsplit hpre hkeys
      (by decide)⟩

end SmartCore.Transactions
