import SmartCore.Ledger.Cache

/-!
# Rows

What a load returns and what a store writes, in terms of the rows of the tables. A load through a
coherent cache returns the row. A store writes one row of one table, or it fails in one of a few
ways.
-/

namespace SmartCore.Ledger

open SmartCore.Transactions

/-- The ways in which loads and stores fail. -/
def storeFaults : List Exit :=
  [.abort, .exception "Could not update data in SQL", .exception "UNIQUE constraint failed",
    .exception "XLM TrustLine?", .exception "Invalid TrustEntry", .exception "Invalid asset",
    .exception "could not update SQL", .exception "invalid account state"]

/-- The table `t'` is `t` with `v` at `k`. -/
def Put {κ α : Type} [LinearOrder κ] (t t' : Table κ α) (k : κ) (v : α) : Prop :=
  t'[k]? = some v ∧ ∀ k' ≠ k, t'[k']? = t[k']?

theorem put_insert {κ α : Type} [LinearOrder κ] (t : Table κ α) (k : κ) (v : α) :
    Put t (t.insert k v) k v :=
  ⟨Std.ExtTreeMap.getElem?_insert_self, Table.getElem?_insert_of_ne⟩

theorem Put.insert {κ α : Type} [LinearOrder κ] {t t' : Table κ α} {k : κ} {v : α}
    (h : Put t t' k v) (v' : α) : Put t (t'.insert k v') k v' :=
  ⟨Std.ExtTreeMap.getElem?_insert_self, fun k' hk' =>
    (Table.getElem?_insert_of_ne k' hk').trans (h.2 k' hk')⟩

/-- What stays as it is, whatever is loaded and stored. -/
structure Kept (s t : LedgerState) : Prop where
  coherent : Coherent s → Coherent t
  ledger : t.mCurrentLedger = s.mCurrentLedger

section Kept

variable {s t u : LedgerState} {d : ℕ} {kind : StoreKind} {k : LedgerKey}

theorem Kept.refl (s : LedgerState) : Kept s s := ⟨fun h => h, rfl⟩

theorem Kept.trans (h : Kept s t) (h' : Kept t u) : Kept s u :=
  ⟨fun hs => h'.coherent (h.coherent hs), h'.ledger.trans h.ledger⟩

theorem Loaded.kept (h : Loaded d s t) : Kept s t := ⟨fun hs => hs.loaded h, h.ledger⟩

theorem Stored.kept (h : Stored kind d k s t) : Kept s t := ⟨fun hs => hs.stored h, h.ledger⟩

end Kept

variable {s t : LedgerState} {d : ℕ}

/-- An entry that is not deleted can be modified. -/
theorem LedgerDelta.modEntry_ne_none {δ : LedgerDelta} {e : LedgerEntry}
    (h : LedgerEntryKey e ∉ δ.mDelete) : δ.modEntry e ≠ none := by
  unfold LedgerDelta.modEntry
  dsimp only
  split_ifs <;> exact nofun

/-! ## Accounts -/

/-- A row of the table of accounts: what is asserted when it is stored, and that the keys of the
tables are unique. -/
structure RowWellFormed (id : AccountID) (row : Row AccountEntry) : Prop where
  key : row.entry.accountID = id
  homeDomain : isString32Valid row.entry.homeDomain = true
  balance : 0 ≤ row.entry.balance
  signers : (row.entry.signers.map (·.pubKey)).Pairwise (· < ·)

namespace AccountFrame

/-- The account in a row, as it is loaded. -/
def ofRow (row : Row AccountEntry) (mUpdateSigners : Bool) : AccountFrame :=
  let signers := if row.entry.numSubEntries ≠ 0 then row.entry.signers else []
  { mAccountEntry := { row.entry with signers }
    lastModified := row.lastmodified
    mUpdateSigners
    loaded := (row.entry.numSubEntries, signers.length) }

theorem selectAccount_ofRow (s : LedgerState) (id : AccountID) (b : Bool) :
    (s.db.selectAccount id).bind (ofEntry · b) = s.db.accounts[id]?.map (ofRow · b) := by
  unfold Database.selectAccount
  cases s.db.accounts[id]? <;> rfl

theorem signers_ofRow {id : AccountID} {row : Row AccountEntry} (h : RowWellFormed id row)
    (b : Bool) : ((ofRow row b).mAccountEntry.signers.map (·.pubKey)).Pairwise (· < ·) := by
  unfold ofRow
  dsimp only
  split_ifs
  · exact h.signers
  · exact List.Pairwise.nil

theorem isValid_ofRow {id : AccountID} {row : Row AccountEntry} (h : RowWellFormed id row)
    (b : Bool) : (ofRow row b).isValid = true := by
  have hsigners := (signers_ofRow h b).imp (S := (· ≤ ·)) fun hlt => hlt.le
  simp only [isValid, Bool.decide_and, Bool.and_eq_true, decide_eq_true_eq]
  exact ⟨h.homeDomain, h.balance, hsigners⟩

/-- **Loading an account** returns the row, if the cache is coherent. -/
theorem wp_loadAccount_faults (d : ℕ) (id : AccountID) :
    wp (loadAccount d id)
      (fun r t => (Coherent s → ∃ b, r = s.db.accounts[id]?.map (ofRow · b)) ∧ Loaded d s t)
      (fun e _ => e ∈ storeFaults) s := by
  have hrow : wp (loadAccount d id)
      (fun r _ => Coherent s → ∃ b, r = s.db.accounts[id]?.map (ofRow · b))
      (fun e _ => e ∈ storeFaults) s := by
    simp only [loadAccount, loadAccountDb, wp_bind]
    refine wp_mono (wp_getCachedEntry (d := d)) (fun r t ht => ?_) fun _ _ h => h
    obtain ⟨hloaded, hr⟩ := ht
    cases r with
    | some p =>
      have hp (h : Coherent s) :
          p.bind (ofEntry · true) = s.db.accounts[id]?.map (ofRow · true) := by
        rw [h _ _ (hr p rfl)]
        exact selectAccount_ofRow s id true
      simp only [wp_pure]
      cases hf : p.bind (ofEntry · true) with
      | none => exact fun h => ⟨true, hf.symm.trans (hp h)⟩
      | some f =>
        simp only [recordEntry, wp_bind, wp_updateDelta, wp_pure]
        exact ⟨fun _ _ h => ⟨true, hf.symm.trans (hp h)⟩, nofun⟩
    | none =>
      have hselect : (t.db.selectAccount id).bind (ofEntry · false) =
          s.db.accounts[id]?.map (ofRow · false) := by
        rw [hloaded.db]
        exact selectAccount_ofRow s id false
      simp only [wp_bind, wp_get]
      cases hf : (t.db.selectAccount id).bind (ofEntry · false) with
      | none =>
        simp only [putCachedEntry, wp_bind, wp_modify, wp_pure]
        exact fun _ => ⟨false, hf.symm.trans hselect⟩
      | some f =>
        simp only [assertion, putCachedEntry, recordEntry, wp_bind, wp_require, wp_modify,
          wp_updateDelta, wp_pure]
        exact ⟨fun _ => ⟨fun _ _ _ => ⟨false, hf.symm.trans hselect⟩, nofun⟩,
          fun _ => List.mem_cons_self⟩
  exact wp_mono (wp_and hrow (wpLoaded_loadAccount d id s)) (fun _ _ h => h) fun _ _ h => h.1

theorem wp_loadAccount_row (h : Coherent s) (d : ℕ) (id : AccountID) :
    wp (loadAccount d id)
      (fun r t => (∃ b, r = s.db.accounts[id]?.map (ofRow · b)) ∧ Loaded d s t)
      (fun e _ => e ∈ storeFaults) s :=
  wp_mono (wp_loadAccount_faults d id) (fun _ _ ht => ⟨ht.1 h, ht.2⟩) fun _ _ he => he

theorem mergeSigners_self (signers : List Signer) : mergeSigners signers signers = signers := by
  induction signers with
  | nil => rfl
  | cons signer signers ih =>
    have hdrop : (signer :: signers).dropWhile (fun o => o.pubKey < signer.pubKey) =
        signer :: signers := by
      simp
    rw [mergeSigners, hdrop]
    simp [ih]

/-- The signers that are left in the row when the account is stored. -/
def storedSigners (f : AccountFrame) (row : Row AccountEntry) : List Signer :=
  if f.mUpdateSigners then mergeSigners f.mAccountEntry.signers row.entry.signers
  else row.entry.signers

/-- Nothing keeps the account from being stored. -/
structure Storable (f : AccountFrame) (d : ℕ) (s : LedgerState) : Prop where
  valid : f.isValid = true
  ledgerSeq : (s.deltas d).mCurrentHeader.ledgerSeq ≠ 0
  deleted : f.getKey ∉ (s.deltas d).mDelete
  row : s.db.accounts[f.getID]? ≠ none
  signers : (f.mAccountEntry.signers.map (·.pubKey)).Nodup

/-- What storing an account writes. -/
structure Wrote (f : AccountFrame) (s t : LedgerState) : Prop where
  valid : f.isValid = true
  row : ∃ row lastmodified, s.db.accounts[f.getID]? = some row ∧
    Put s.db.accounts t.db.accounts f.getID
      ⟨{ f.mAccountEntry with signers := storedSigners f row }, lastmodified⟩
  trustlines : t.db.trustlines = s.db.trustlines
  offers : t.db.offers = s.db.offers

/-- **Storing an account that is there** writes its row. -/
theorem wp_storeChange_row {f : AccountFrame} :
    wp (f.storeChange d)
      (fun g t => f.Wrote s t ∧ ∃ lastModified, g = { f with lastModified }.stored)
      (fun e _ => e ∈ storeFaults ∧ ¬ f.Storable d s) s := by
  simp only [storeChange, assertion, touch, flushCachedEntry, wp_bind, wp_require,
    wp_get, wp_modify, wp_pure, getKey, getID]
  refine ⟨fun hvalid => ⟨fun hseq => ?_, fun hseq => ?_⟩, fun hvalid => ?_⟩
  · cases hrow : s.db.accounts[f.mAccountEntry.accountID]? with
    | none => exact ⟨by decide, fun h => h.row hrow⟩
    | some row =>
      simp only [wp_bind, wp_modify, wp_updateDelta, wp_runIf, wp_pure]
      set lastModified := (s.deltas d).touchedSeq f.lastModified
      refine ⟨fun δ _ => ⟨fun hupdate => ?_, fun hupdate => ?_⟩, fun hnone => ⟨by decide, ?_⟩⟩
      · simp only [applySigners, getID, flushCachedEntry, wp_bind, wp_get,
          Std.ExtTreeMap.getElem?_insert_self, toRow, wp_ite, wp_throw, wp_modify, wp_pure]
        refine ⟨fun hnot => ⟨by decide, fun h => hnot h.signers⟩,
          fun _ => ⟨fun _ => ⟨⟨hvalid, ⟨row, lastModified, hrow, ?_⟩, rfl, rfl⟩, _, rfl⟩,
            fun heq => ⟨⟨hvalid, ⟨row, lastModified, hrow, ?_⟩, rfl, rfl⟩, _, rfl⟩⟩⟩
        · rw [storedSigners, if_pos hupdate]
          exact (put_insert _ _ _).insert _
        · rw [storedSigners, if_pos hupdate, not_not.mp heq]
          exact put_insert _ _ _
      · refine ⟨⟨hvalid, ⟨row, lastModified, hrow, ?_⟩, rfl, rfl⟩, _, rfl⟩
        rw [storedSigners, if_neg hupdate]
        exact put_insert _ _ _
      · exact fun h => LedgerDelta.modEntry_ne_none h.deleted hnone
  · obtain ⟨-, hzero⟩ : _ ∧ (s.deltas d).mCurrentHeader.ledgerSeq = 0 := by simpa using hseq
    exact ⟨by decide, fun h => h.ledgerSeq hzero⟩
  · refine ⟨by decide, fun h => ?_⟩
    rw [h.valid] at hvalid
    cases hvalid

end AccountFrame

/-! ## Trust lines -/

namespace TrustFrame

/-- The trust line in a row, as it is loaded. -/
def ofRow (row : Row TrustLineEntry) : TrustFrame :=
  { mTrustLine := row.entry, lastModified := row.lastmodified, loaded := row.entry.balance }

theorem selectTrustLine_ofRow (s : LedgerState) (k : LedgerKey) :
    (s.db.selectTrustLine k).bind ofEntry = s.db.trustlines[k]?.map ofRow := by
  unfold Database.selectTrustLine
  cases s.db.trustlines[k]? <;> rfl

/-- **Loading a trust line** returns the row, if it is valid and the cache is coherent. -/
theorem wp_loadTrustLine_faults (d : ℕ) (id : AccountID) (asset : Asset) :
    wp (loadTrustLine d id asset)
      (fun r t => (Coherent s → r = s.db.trustlines[LedgerKey.trustLine id asset]?.map ofRow ∧
        ∀ f, r = some f → f.isValid = true) ∧ Loaded d s t)
      (fun e _ => e ∈ storeFaults) s := by
  have hrow : wp (loadTrustLine d id asset)
      (fun r _ => Coherent s → r = s.db.trustlines[LedgerKey.trustLine id asset]?.map ofRow ∧
        ∀ f, r = some f → f.isValid = true)
      (fun e _ => e ∈ storeFaults) s := by
    simp only [loadTrustLine, wp_ite, wp_throw, wp_bind]
    refine ⟨fun _ => by decide, fun _ => ?_⟩
    refine wp_mono (wp_getCachedEntry (d := d)) (fun r t ht => ?_) fun _ _ h => h
    obtain ⟨hloaded, hr⟩ := ht
    cases r with
    | some p =>
      have hp (h : Coherent s) :
          p.bind ofEntry = s.db.trustlines[LedgerKey.trustLine id asset]?.map ofRow := by
        rw [h _ _ (hr p rfl)]
        exact selectTrustLine_ofRow s _
      simp only
      cases hf : p.bind ofEntry with
      | none => exact fun h => ⟨hf.symm.trans (hp h), by simp⟩
      | some f =>
        simp only [assertion, wp_bind, wp_require, wp_pure]
        exact ⟨fun hvalid h => ⟨hf.symm.trans (hp h), fun f' hf' => Option.some.inj hf' ▸ hvalid⟩,
          fun _ => by decide⟩
    | none =>
      have hselect : (t.db.selectTrustLine (.trustLine id asset)).bind ofEntry =
          s.db.trustlines[LedgerKey.trustLine id asset]?.map ofRow := by
        rw [hloaded.db]
        exact selectTrustLine_ofRow s _
      simp only [wp_bind, wp_get]
      cases hf : (t.db.selectTrustLine (.trustLine id asset)).bind ofEntry with
      | none =>
        simp only [putCachedEntry, wp_bind, wp_modify, wp_pure]
        exact fun _ => ⟨hf.symm.trans hselect, by simp⟩
      | some f =>
        simp only [wp_ite, wp_throw, putCachedEntry, recordEntry, wp_bind, wp_modify,
          wp_updateDelta, wp_pure]
        refine ⟨fun _ => by decide, fun hvalid => ⟨fun _ _ _ => ⟨hf.symm.trans hselect, ?_⟩,
          by simp⟩⟩
        intro f' hf'
        obtain rfl := Option.some.inj hf'
        simpa using hvalid
  exact wp_mono (wp_and hrow (wpLoaded_loadTrustLine d id asset s)) (fun _ _ h => h)
    fun _ _ h => h.1

theorem wp_loadTrustLine_row (h : Coherent s) (d : ℕ) (id : AccountID) (asset : Asset) :
    wp (loadTrustLine d id asset)
      (fun r t => r = s.db.trustlines[LedgerKey.trustLine id asset]?.map ofRow ∧
        (∀ f, r = some f → f.isValid = true) ∧ Loaded d s t)
      (fun e _ => e ∈ storeFaults) s :=
  wp_mono (wp_loadTrustLine_faults d id asset)
    (fun _ _ ht => ⟨(ht.1 h).1, (ht.1 h).2, ht.2⟩) fun _ _ he => he

/-- What storing a trust line writes. -/
structure Wrote (f : TrustFrame) (s t : LedgerState) : Prop where
  valid : f.isValid = true
  row : ∃ row lastModified, s.db.trustlines[f.getKey]? = some row ∧
    Put s.db.trustlines t.db.trustlines f.getKey ({ f with lastModified }.toRow row.entry)
  accounts : t.db.accounts = s.db.accounts
  offers : t.db.offers = s.db.offers

/-- **Storing a trust line that is there** writes its row. -/
theorem wp_storeChange_row {f : TrustFrame} :
    wp (f.storeChange d) (fun _ t => f.Wrote s t) (fun e _ => e ∈ storeFaults) s := by
  simp only [storeChange, assertion, touch, flushCachedEntry, wp_bind, wp_require,
    wp_get, wp_modify, wp_pure, wp_ite, wp_throw, getKey]
  refine ⟨fun _ => by decide, fun hvalid => ⟨fun _ => ?_, fun _ => by decide⟩⟩
  cases hrow : s.db.trustlines[LedgerKey.trustLine f.mTrustLine.accountID f.mTrustLine.asset]? with
  | none => exact List.mem_cons_of_mem _ List.mem_cons_self
  | some row =>
    simp only [wp_bind, wp_modify, wp_updateDelta, wp_pure]
    exact ⟨fun _ _ => ⟨by simpa using hvalid, ⟨row, _, hrow, put_insert _ _ _⟩, rfl, rfl⟩,
      fun _ => List.mem_cons_self⟩

end TrustFrame

/-! ## Offers -/

namespace OfferFrame

/-- **Deleting an offer** deletes its row. -/
theorem wp_storeDelete_row {f : OfferFrame} :
    wp (f.storeDelete d)
      (fun _ t => t.db = { s.db with offers := s.db.offers.erase f.mOffer.offerID })
      (fun e _ => e ∈ storeFaults) s := by
  simp only [storeDelete, wp_bind, wp_modify, wp_updateDelta]
  exact ⟨fun _ _ => trivial, fun _ => List.mem_cons_self⟩

/-- **Storing an offer that is there** writes its row. -/
theorem wp_storeChange_row {f : OfferFrame} :
    wp (f.storeChange d)
      (fun g t => g.mOffer = f.mOffer ∧
        ∃ row lastmodified, s.db.offers[f.mOffer.offerID]? = some row ∧
        t.db = { s.db with offers := (s.db.offers.insert f.mOffer.offerID
          ⟨{ f.mOffer with sellerID := row.entry.sellerID }, lastmodified⟩) })
      (fun e _ => e ∈ storeFaults) s := by
  simp only [storeChange, touch, assertion, wp_bind, wp_get, wp_pure, wp_require,
    wp_ite, wp_throw]
  refine ⟨fun _ => ⟨fun _ => by decide, fun _ => ?_⟩, fun _ => by decide⟩
  cases hrow : s.db.offers[f.mOffer.offerID]? with
  | none =>
    show Exit.exception "could not update SQL" ∈ storeFaults
    decide
  | some row =>
    simp only [wp_bind, wp_modify, wp_updateDelta, wp_pure]
    exact ⟨fun _ _ => ⟨trivial, row, _, rfl, rfl⟩, fun _ => List.mem_cons_self⟩

/-- **Storing a new offer** adds its row. -/
theorem wp_storeAdd_row {f : OfferFrame} :
    wp (f.storeAdd d)
      (fun g t => g.mOffer = f.mOffer ∧ ∃ lastmodified,
        t.db = { s.db with offers := s.db.offers.insert f.mOffer.offerID ⟨f.mOffer, lastmodified⟩ })
      (fun e _ => e ∈ storeFaults) s := by
  simp only [storeAdd, touch, assertion, wp_bind, wp_get, wp_pure, wp_require, wp_ite,
    wp_throw]
  refine ⟨fun _ => ⟨fun _ => by decide, fun _ => ?_⟩, fun _ => by decide⟩
  cases s.db.offers[f.mOffer.offerID]? with
  | some row =>
    show Exit.exception "UNIQUE constraint failed" ∈ storeFaults
    decide
  | none =>
    simp only [wp_bind, wp_modify, wp_updateDelta, wp_pure]
    exact ⟨fun _ _ => ⟨trivial, _, rfl⟩, fun _ => List.mem_cons_self⟩

end OfferFrame

end SmartCore.Ledger
