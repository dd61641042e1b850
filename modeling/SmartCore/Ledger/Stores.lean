import SmartCore.Ledger.Frames
import SmartCore.Ledger.Tracks

/-!
# Specifications of loads and stores

Each of them in terms of keys. A store writes the row of one key (`Stored`): it notes it in its delta
and takes it out of the cache. If it throws or dies in between, the delta may not have it (`Halted`).
A load changes no row; an entry that it puts into the cache is the row as it is (`Loaded`).
-/

namespace SmartCore.Ledger

/-! ## Writes -/

/-- A write of `k` that has not come to a delta: of the other keys nothing changes, and `k` is not in
the cache if its row is not what it was. -/
structure Halted (k : LedgerKey) (s s' : LedgerState) : Prop where
  row : ∀ k' ≠ k, s'.db.select k' = s.db.select k'
  cache : ∀ k' v, (k', v) ∈ s'.mEntryCache → (k', v) ∈ s.mEntryCache ∧
    (k' = k → s'.db.select k = s.db.select k)
  deltas : s'.deltas = s.deltas
  ledger : s'.mCurrentLedger = s.mCurrentLedger
  history : s'.txhistory = s.txhistory

/-- What is done to a row. -/
inductive StoreKind where
  | change
  | add
  | delete

/-- A write of `k` that is in the delta `d`. -/
structure Stored (kind : StoreKind) (d : ℕ) (k : LedgerKey) (s s' : LedgerState) : Prop where
  row : ∀ k' ≠ k, s'.db.select k' = s.db.select k'
  cache : ∀ k' v, (k', v) ∈ s'.mEntryCache → (k', v) ∈ s.mEntryCache ∧
    (k' = k → s'.db.select k = s.db.select k)
  delta : ∀ i ≠ d, s'.deltas i = s.deltas i
  same : ∀ k' ≠ k, (s.deltas d).Same k' (s'.deltas d)
  ledger : s'.mCurrentLedger = s.mCurrentLedger
  history : s'.txhistory = s.txhistory
  header : (s.deltas d).SameHeader (s'.deltas d)
  wf : (s.deltas d).WellFormed → (s'.deltas d).WellFormed
  change : kind = .change → (k ∈ (s'.deltas d).mNew ↔ k ∈ (s.deltas d).mNew) ∧
    (k ∈ (s'.deltas d).mDelete ↔ k ∈ (s.deltas d).mDelete) ∧ k ∈ (s'.deltas d).touched ∧
      (s.db.select k ≠ none ∨ s'.db.select k = none)
  add : kind = .add → k ∈ (s'.deltas d).touched ∧ k ∉ (s'.deltas d).mDelete ∧
    (k ∈ (s'.deltas d).mNew → k ∈ (s.deltas d).mNew ∨ k ∉ (s.deltas d).touched) ∧
      s.db.select k = none
  delete : kind = .delete → k ∉ (s'.deltas d).mNew ∧
    (k ∉ (s'.deltas d).touched → k ∈ (s.deltas d).mNew) ∧ s'.db.select k = none

theorem Halted.refl (k : LedgerKey) (s : LedgerState) : Halted k s s :=
  ⟨fun _ _ => rfl, fun _ _ h => ⟨h, fun _ => rfl⟩, rfl, rfl, rfl⟩

theorem mem_eraseCached {cache : List (LedgerKey × Option LedgerEntry)} {k k' : LedgerKey}
    {v : Option LedgerEntry} : (k', v) ∈ eraseCached cache k ↔ (k', v) ∈ cache ∧ k' ≠ k := by
  simp [eraseCached]

section Writes

variable {kind : StoreKind} {d : ℕ} {k : LedgerKey} {s t u : LedgerState} {δ : LedgerDelta}
  {e : LedgerEntry}

/-- The cache loses the key. -/
def CacheLess (k : LedgerKey) (s t : LedgerState) : Prop :=
  ∀ k' v, (k', v) ∈ t.mEntryCache → (k', v) ∈ s.mEntryCache ∧
    (k' = k → t.db.select k = s.db.select k)

theorem cacheLess_flush (h : t.mEntryCache = eraseCached s.mEntryCache k) : CacheLess k s t := by
  intro k' v hmem
  rw [h, mem_eraseCached] at hmem
  exact ⟨hmem.1, fun heq => absurd heq hmem.2⟩

/-- The rest of the state, of which a write changes nothing. -/
def SameLedger (s t : LedgerState) : Prop :=
  t.mCurrentLedger = s.mCurrentLedger ∧ t.txhistory = s.txhistory

theorem Halted.of_row (hrow : ∀ k' ≠ k, t.db.select k' = s.db.select k')
    (hcache : CacheLess k s t) (hdelta : t.deltas = s.deltas) (hsame : SameLedger s t) :
    Halted k s t := ⟨hrow, hcache, hdelta, hsame.1, hsame.2⟩

theorem Stored.of_modEntry (hδ : (s.deltas d).modEntry e = some δ) (hkey : LedgerEntryKey e = k)
    (hrow : ∀ k' ≠ k, t.db.select k' = s.db.select k') (hcache : CacheLess k s t)
    (hdelta : t.deltas = Function.update s.deltas d δ) (hsame : SameLedger s t)
    (hsome : s.db.select k ≠ none ∨ t.db.select k = none) : Stored .change d k s t := by
  subst hkey
  obtain rfl : δ = t.deltas d := by rw [hdelta, Function.update_self]
  refine ⟨hrow, hcache, fun i hi => by rw [hdelta, Function.update_of_ne hi], fun k' hk' => ?_,
    hsame.1, hsame.2, ?_, fun hwf => ?_, fun _ => ?_, nofun, nofun⟩
  · exact LedgerDelta.modEntry_other hδ hk'
  · exact LedgerDelta.modEntry_header hδ
  · exact hwf.modEntry hδ
  · obtain ⟨hnew, hdel, hlive⟩ := LedgerDelta.modEntry_self hδ
    exact ⟨hnew, hdel, LedgerDelta.mem_touched.mpr (Or.inr hlive), hsome⟩

theorem Stored.of_addEntry (hδ : (s.deltas d).addEntry e = some δ) (hkey : LedgerEntryKey e = k)
    (hrow : ∀ k' ≠ k, t.db.select k' = s.db.select k') (hcache : CacheLess k s t)
    (hdelta : t.deltas = Function.update s.deltas d δ) (hsame : SameLedger s t)
    (hnone : s.db.select k = none) : Stored .add d k s t := by
  subst hkey
  obtain rfl : δ = t.deltas d := by rw [hdelta, Function.update_self]
  refine ⟨hrow, hcache, fun i hi => by rw [hdelta, Function.update_of_ne hi], fun k' hk' => ?_,
    hsame.1, hsame.2, ?_, fun hwf => ?_, nofun, fun _ => ?_, nofun⟩
  · exact LedgerDelta.addEntry_other hδ hk'
  · exact LedgerDelta.addEntry_header hδ
  · exact hwf.addEntry hδ
  · obtain ⟨htouched, hdel, hnew⟩ := LedgerDelta.addEntry_self hδ
    exact ⟨htouched, hdel, hnew, hnone⟩

theorem Stored.of_deleteEntry (hδ : (s.deltas d).deleteEntry k = some δ)
    (hrow : ∀ k' ≠ k, t.db.select k' = s.db.select k') (hcache : CacheLess k s t)
    (hdelta : t.deltas = Function.update s.deltas d δ) (hsame : SameLedger s t)
    (hnone : t.db.select k = none) : Stored .delete d k s t := by
  obtain rfl : δ = t.deltas d := by rw [hdelta, Function.update_self]
  refine ⟨hrow, hcache, fun i hi => by rw [hdelta, Function.update_of_ne hi], fun k' hk' => ?_,
    hsame.1, hsame.2, ?_, fun hwf => ?_, nofun, nofun, fun _ => ?_⟩
  · exact LedgerDelta.deleteEntry_other hδ hk'
  · exact LedgerDelta.deleteEntry_header hδ
  · exact hwf.deleteEntry hδ
  · obtain ⟨hnew, htouched⟩ := LedgerDelta.deleteEntry_self hδ
    exact ⟨hnew, htouched, hnone⟩

/-- The row is written once more. -/
theorem Stored.again (h : Stored kind d k s t) (hrow : ∀ k' ≠ k, u.db.select k' = t.db.select k')
    (hcache : u.mEntryCache = eraseCached t.mEntryCache k) (hdelta : u.deltas = t.deltas)
    (hsame : SameLedger t u) (hsome : t.db.select k ≠ none) : Stored kind d k s u := by
  refine ⟨fun k' hk' => (hrow k' hk').trans (h.row k' hk'), fun k' v hmem => ?_,
    fun i hi => by rw [hdelta, h.delta i hi], fun k' hk' => ?_, hsame.1.trans h.ledger,
    hsame.2.trans h.history, by rw [hdelta]; exact h.header, ?_, fun hkind => ?_, fun hkind => ?_,
    fun hkind => ?_⟩
  · rw [hcache, mem_eraseCached] at hmem
    exact ⟨(h.cache k' v hmem.1).1, fun heq => absurd heq hmem.2⟩
  · rw [hdelta]
    exact h.same k' hk'
  · rw [hdelta]
    exact h.wf
  · rw [hdelta]
    obtain ⟨hnew, hdel, htouched, hr⟩ := h.change hkind
    exact ⟨hnew, hdel, htouched, Or.inl (hr.resolve_right hsome)⟩
  · rw [hdelta]
    exact h.add hkind
  · exact absurd (h.delete hkind).2.2 hsome

end Writes

/-! ## Stores -/

namespace Database

variable {db : Database}

theorem select_accounts_ne {accounts : Table AccountID (Row AccountEntry)} {trace : List Event}
    {id : AccountID} (h : ∀ id' ≠ id, accounts[id']? = db.accounts[id']?) {k : LedgerKey}
    (hk : k ≠ .account id) : Database.select { db with accounts, trace } k = db.select k := by
  cases k with
  | account id' =>
    have hne : id' ≠ id := fun heq => hk (heq ▸ rfl)
    simp only [select, selectAccount, h id' hne]
  | _ => rfl

theorem select_trustlines_ne {trustlines : Table LedgerKey (Row TrustLineEntry)}
    {trace : List Event} {k : LedgerKey} (h : ∀ k' ≠ k, trustlines[k']? = db.trustlines[k']?)
    {k' : LedgerKey} (hk : k' ≠ k) :
    Database.select { db with trustlines, trace } k' = db.select k' := by
  cases k' with
  | trustLine id asset => simp only [select, selectTrustLine, h _ hk]
  | _ => rfl

theorem select_account_eq_none {id : AccountID} :
    db.select (.account id) = none ↔ db.accounts[id]? = none := by
  simp [select, selectAccount]

theorem select_trustLine_eq_none {id : AccountID} {asset : Asset} :
    db.select (.trustLine id asset) = none ↔
      db.trustlines[LedgerKey.trustLine id asset]? = none := by
  simp [select, selectTrustLine]

end Database

section Stores

variable {kind : StoreKind} {d : ℕ} {s t : LedgerState}

/-- How a store ends: with a write, or with an exception or an abort in the middle of one. -/
def WpStored (kind : StoreKind) (d : ℕ) (k : LedgerKey) (s : LedgerState) {α : Type}
    (x : LedgerM α) : Prop :=
  wp x (fun _ s' => Stored kind d k s s')
    (fun e s' => (∀ r, e ≠ .opFailed r) ∧ (Stored kind d k s s' ∨ Halted k s s')) s

namespace AccountFrame

variable {f : AccountFrame}

/-- The signers are in the row of the account. -/
theorem wp_applySigners (h : Stored kind d f.getKey s t) (ht : t.db.accounts[f.getID]? ≠ none) :
    wp f.applySigners (fun _ s' => Stored kind d f.getKey s s')
      (fun e s' => (∀ r, e ≠ .opFailed r) ∧ (Stored kind d f.getKey s s' ∨ Halted f.getKey s s'))
      t := by
  simp only [applySigners, flushCachedEntry, wp_bind, wp_get]
  cases hrow : t.db.accounts[f.getID]? with
  | none => exact absurd hrow ht
  | some row =>
    simp only [wp_ite, wp_throw, wp_bind, wp_modify, wp_pure]
    refine ⟨fun _ => ⟨fun r => by simp, Or.inl h⟩, fun _ => ⟨fun _ => ?_, fun _ => h⟩⟩
    refine h.again (fun k' hk' => ?_) rfl rfl ⟨rfl, rfl⟩ (Database.select_account_eq_none.not.mpr ht)
    exact Database.select_accounts_ne Table.getElem?_insert_of_ne hk'

theorem wp_storeChange : WpStored .change d f.getKey s (f.storeChange d) := by
  simp only [WpStored, storeChange, assertion, touch, flushCachedEntry, wp_bind,
    wp_require, wp_get, wp_modify, wp_pure, getKey, getID]
  refine ⟨fun hvalid => ⟨fun hseq => ?_, fun _ => ⟨fun r => by simp, Or.inr (.refl _ s)⟩⟩,
    fun _ => ⟨fun r => by simp, Or.inr (.refl _ s)⟩⟩
  cases hrow : s.db.accounts[f.mAccountEntry.accountID]? with
  | none =>
    exact ⟨fun r => by simp, Or.inr
      (.of_row (fun _ _ => rfl) (cacheLess_flush rfl) rfl ⟨rfl, rfl⟩)⟩
  | some row =>
    simp only [wp_bind, wp_modify, wp_updateDelta, wp_runIf, wp_pure]
    refine ⟨fun δ hδ => ?_, fun _ => ⟨fun r => by simp, Or.inr (.of_row
      (fun k' hk' => Database.select_accounts_ne Table.getElem?_insert_of_ne hk')
      (cacheLess_flush rfl) rfl ⟨rfl, rfl⟩)⟩⟩
    refine ⟨fun _ => wp_applySigners (f := { f with lastModified := _ }) ?_ (by simp [getID]),
      fun _ => ?_⟩ <;>
    · refine Stored.of_modEntry hδ rfl
        (fun k' hk' => Database.select_accounts_ne Table.getElem?_insert_of_ne hk')
        (cacheLess_flush rfl) rfl ⟨rfl, rfl⟩ (Or.inl (Database.select_account_eq_none.not.mpr ?_))
      simp [getID, hrow]

theorem wp_storeAdd : WpStored .add d f.getKey s (f.storeAdd d) := by
  simp only [WpStored, storeAdd, assertion, touch, flushCachedEntry, wp_bind,
    wp_require, wp_get, wp_modify, wp_pure, getKey, getID]
  refine ⟨fun hvalid => ⟨fun hseq => ?_, fun _ => ⟨fun r => by simp, Or.inr (.refl _ s)⟩⟩,
    fun _ => ⟨fun r => by simp, Or.inr (.refl _ s)⟩⟩
  cases hrow : s.db.accounts[f.mAccountEntry.accountID]? with
  | some row =>
    exact ⟨fun r => by simp, Or.inr
      (.of_row (fun _ _ => rfl) (cacheLess_flush rfl) rfl ⟨rfl, rfl⟩)⟩
  | none =>
    simp only [wp_bind, wp_modify, wp_updateDelta, wp_runIf, wp_pure]
    refine ⟨fun δ hδ => ?_, fun _ => ⟨fun r => by simp, Or.inr (.of_row
      (fun k' hk' => Database.select_accounts_ne Table.getElem?_insert_of_ne hk')
      (cacheLess_flush rfl) rfl ⟨rfl, rfl⟩)⟩⟩
    refine ⟨fun _ => wp_applySigners (f := { f with lastModified := _ }) ?_ (by simp [getID]),
      fun _ => ?_⟩ <;>
    · refine Stored.of_addEntry hδ rfl
        (fun k' hk' => Database.select_accounts_ne Table.getElem?_insert_of_ne hk')
        (cacheLess_flush rfl) rfl ⟨rfl, rfl⟩ (Database.select_account_eq_none.mpr ?_)
      simp [getID, hrow]

theorem wp_storeDelete : WpStored .delete d f.getKey s (f.storeDelete d) := by
  simp only [WpStored, storeDelete, flushCachedEntry, wp_bind, wp_modify, wp_updateDelta]
  refine ⟨fun δ hδ => ?_, fun _ => ⟨fun r => by simp, Or.inr (.of_row
    (fun k' hk' => Database.select_accounts_ne Table.getElem?_erase_of_ne hk')
    (cacheLess_flush rfl) rfl ⟨rfl, rfl⟩)⟩⟩
  refine Stored.of_deleteEntry hδ
    (fun k' hk' => Database.select_accounts_ne Table.getElem?_erase_of_ne hk')
    (cacheLess_flush rfl) rfl ⟨rfl, rfl⟩ (Database.select_account_eq_none.mpr ?_)
  simp

end AccountFrame

namespace TrustFrame

variable {f : TrustFrame}

theorem wp_storeChange : WpStored .change d f.getKey s (f.storeChange d) := by
  simp only [WpStored, storeChange, assertion, touch, flushCachedEntry, wp_bind,
    wp_require, wp_get, wp_modify, wp_pure, wp_ite, wp_throw, getKey]
  refine ⟨fun _ => ⟨fun r => by simp, Or.inr (.refl _ s)⟩, fun _ => ⟨fun hseq => ?_, fun _ => ⟨fun r => by
    simp, Or.inr (.of_row (fun _ _ => rfl) (cacheLess_flush rfl) rfl ⟨rfl, rfl⟩)⟩⟩⟩
  cases hrow : s.db.trustlines[LedgerKey.trustLine f.mTrustLine.accountID f.mTrustLine.asset]? with
  | none =>
    exact ⟨fun r => by simp, Or.inr
      (.of_row (fun _ _ => rfl) (cacheLess_flush rfl) rfl ⟨rfl, rfl⟩)⟩
  | some row =>
    simp only [wp_bind, wp_modify, wp_updateDelta, wp_pure]
    refine ⟨fun δ hδ => ?_, fun _ => ⟨fun r => by simp, Or.inr (.of_row
      (fun k' hk' => Database.select_trustlines_ne Table.getElem?_insert_of_ne hk')
      (cacheLess_flush rfl) rfl ⟨rfl, rfl⟩)⟩⟩
    refine Stored.of_modEntry hδ rfl
      (fun k' hk' => Database.select_trustlines_ne Table.getElem?_insert_of_ne hk')
      (cacheLess_flush rfl) rfl ⟨rfl, rfl⟩ (Or.inl (Database.select_trustLine_eq_none.not.mpr ?_))
    simp [hrow]

theorem wp_storeAdd : WpStored .add d f.getKey s (f.storeAdd d) := by
  simp only [WpStored, storeAdd, assertion, touch, flushCachedEntry, wp_bind,
    wp_require, wp_get, wp_modify, wp_pure, wp_ite, wp_throw, getKey]
  refine ⟨fun _ => ⟨fun r => by simp, Or.inr (.refl _ s)⟩, fun _ => ⟨fun hseq => ?_, fun _ => ⟨fun r => by
    simp, Or.inr (.of_row (fun _ _ => rfl) (cacheLess_flush rfl) rfl ⟨rfl, rfl⟩)⟩⟩⟩
  cases hrow : s.db.trustlines[LedgerKey.trustLine f.mTrustLine.accountID f.mTrustLine.asset]? with
  | some row =>
    exact ⟨fun r => by simp, Or.inr
      (.of_row (fun _ _ => rfl) (cacheLess_flush rfl) rfl ⟨rfl, rfl⟩)⟩
  | none =>
    simp only [wp_bind, wp_modify, wp_updateDelta, wp_pure]
    refine ⟨fun δ hδ => ?_, fun _ => ⟨fun r => by simp, Or.inr (.of_row
      (fun k' hk' => Database.select_trustlines_ne Table.getElem?_insert_of_ne hk')
      (cacheLess_flush rfl) rfl ⟨rfl, rfl⟩)⟩⟩
    refine Stored.of_addEntry hδ rfl
      (fun k' hk' => Database.select_trustlines_ne Table.getElem?_insert_of_ne hk')
      (cacheLess_flush rfl) rfl ⟨rfl, rfl⟩ (Database.select_trustLine_eq_none.mpr ?_)
    exact hrow

theorem wp_storeDelete : WpStored .delete d f.getKey s (f.storeDelete d) := by
  simp only [WpStored, storeDelete, flushCachedEntry, wp_bind, wp_modify, wp_updateDelta, getKey]
  refine ⟨fun δ hδ => ?_, fun _ => ⟨fun r => by simp, Or.inr (.of_row
    (fun k' hk' => Database.select_trustlines_ne Table.getElem?_erase_of_ne hk')
    (cacheLess_flush rfl) rfl ⟨rfl, rfl⟩)⟩⟩
  refine Stored.of_deleteEntry hδ
    (fun k' hk' => Database.select_trustlines_ne Table.getElem?_erase_of_ne hk')
    (cacheLess_flush rfl) rfl ⟨rfl, rfl⟩ (Database.select_trustLine_eq_none.mpr ?_)
  simp

end TrustFrame

/-! Offers, data and reversed payments are not read through the cache. -/

/-- The rows that the cache is in front of are as they were. -/
def SameCached (s t : LedgerState) : Prop :=
  (∀ k, t.db.select k = s.db.select k) ∧ t.mEntryCache = s.mEntryCache ∧ SameLedger s t

theorem SameCached.cacheLess {k : LedgerKey} (h : SameCached s t) : CacheLess k s t := by
  intro k' v hmem
  rw [h.2.1] at hmem
  exact ⟨hmem, fun _ => h.1 k⟩

theorem Database.select_of_tables {db db' : Database} (haccounts : db'.accounts = db.accounts)
    (hlines : db'.trustlines = db.trustlines) (k : LedgerKey) : db'.select k = db.select k := by
  cases k <;> simp [select, selectAccount, selectTrustLine, haccounts, hlines]

theorem SameCached.halted {k : LedgerKey} (h : SameCached s t) (hdeltas : t.deltas = s.deltas) :
    Halted k s t := .of_row (fun k' _ => h.1 k') h.cacheLess hdeltas h.2.2

/-- A store of an entry that is not cached. -/
theorem SameCached.stored {k : LedgerKey} {e : LedgerEntry} {δ : LedgerDelta} (h : SameCached s t)
    (hdeltas : t.deltas = s.deltas) (hnone : s.db.select k = none)
    (hδ : kind = .change ∧ LedgerEntryKey e = k ∧ (t.deltas d).modEntry e = some δ ∨
      kind = .add ∧ LedgerEntryKey e = k ∧ (t.deltas d).addEntry e = some δ ∨
        kind = .delete ∧ (t.deltas d).deleteEntry k = some δ) :
    Stored kind d k s { t with deltas := Function.update t.deltas d δ } := by
  have hnone' : t.db.select k = none := (h.1 k).trans hnone
  rw [hdeltas] at hδ ⊢
  rcases hδ with ⟨rfl, hk, he⟩ | ⟨rfl, hk, he⟩ | ⟨rfl, hk⟩
  · exact .of_modEntry he hk (fun k' _ => h.1 k') h.cacheLess rfl h.2.2 (Or.inr hnone')
  · exact .of_addEntry he hk (fun k' _ => h.1 k') h.cacheLess rfl h.2.2 hnone
  · exact .of_deleteEntry hk (fun k' _ => h.1 k') h.cacheLess rfl h.2.2 hnone'

theorem sameCached_offers (offers : Table ℕ (Row OfferEntry)) :
    SameCached s { s with db.offers := offers } :=
  ⟨Database.select_of_tables rfl rfl, rfl, rfl, rfl⟩

theorem sameCached_accountdata (accountdata : Table LedgerKey DataEntry) :
    SameCached s { s with db.accountdata := accountdata } :=
  ⟨Database.select_of_tables rfl rfl, rfl, rfl, rfl⟩

theorem sameCached_reversedPayment (reversedPayment : Table ℤ ℕ) :
    SameCached s { s with db.reversedPayment := reversedPayment } :=
  ⟨Database.select_of_tables rfl rfl, rfl, rfl, rfl⟩

namespace OfferFrame

variable {f : OfferFrame}

theorem wp_storeDelete : WpStored .delete d f.getKey s (f.storeDelete d) := by
  simp only [WpStored, storeDelete, wp_bind, wp_modify, wp_updateDelta]
  exact ⟨fun δ hδ => (sameCached_offers _).stored (e := f.mEntry) rfl rfl
    (Or.inr (Or.inr ⟨rfl, hδ⟩)),
    fun _ => ⟨fun r => by simp, Or.inr ((sameCached_offers _).halted rfl)⟩⟩

theorem wp_storeChange : WpStored .change d f.getKey s (f.storeChange d) := by
  simp only [WpStored, storeChange, touch, assertion, wp_bind, wp_get, wp_pure,
    wp_require, wp_ite, wp_throw]
  refine ⟨fun _ => ⟨fun _ => ⟨fun r => by simp, Or.inr (.refl _ s)⟩, fun _ => ?_⟩,
    fun _ => ⟨fun r => by simp, Or.inr (.refl _ s)⟩⟩
  cases s.db.offers[f.mOffer.offerID]? with
  | none => exact ⟨fun r => by simp, Or.inr (.refl _ s)⟩
  | some row =>
    simp only [wp_bind, wp_modify, wp_updateDelta, wp_pure]
    exact ⟨fun δ hδ => (sameCached_offers _).stored rfl rfl
      (Or.inl ⟨rfl, rfl, hδ⟩),
      fun _ => ⟨fun r => by simp, Or.inr ((sameCached_offers _).halted rfl)⟩⟩

theorem wp_storeAdd : WpStored .add d f.getKey s (f.storeAdd d) := by
  simp only [WpStored, storeAdd, touch, assertion, wp_bind, wp_get, wp_pure,
    wp_require, wp_ite, wp_throw]
  refine ⟨fun _ => ⟨fun _ => ⟨fun r => by simp, Or.inr (.refl _ s)⟩, fun _ => ?_⟩,
    fun _ => ⟨fun r => by simp, Or.inr (.refl _ s)⟩⟩
  cases s.db.offers[f.mOffer.offerID]? with
  | some row => exact ⟨fun r => by simp, Or.inr (.refl _ s)⟩
  | none =>
    simp only [wp_bind, wp_modify, wp_updateDelta, wp_pure]
    exact ⟨fun δ hδ => (sameCached_offers _).stored rfl rfl
      (Or.inr (Or.inl ⟨rfl, rfl, hδ⟩)),
      fun _ => ⟨fun r => by simp, Or.inr ((sameCached_offers _).halted rfl)⟩⟩

end OfferFrame

namespace DataFrame

variable {f : DataFrame}

theorem wp_storeDelete : WpStored .delete d f.getKey s (f.storeDelete d) := by
  simp only [WpStored, storeDelete, wp_bind, wp_modify, wp_updateDelta]
  exact ⟨fun δ hδ => (sameCached_accountdata _).stored (e := f.mEntry) rfl rfl
    (Or.inr (Or.inr ⟨rfl, hδ⟩)),
    fun _ => ⟨fun r => by simp, Or.inr ((sameCached_accountdata _).halted rfl)⟩⟩

theorem wp_storeChange : WpStored .change d f.getKey s (f.storeChange d) := by
  simp only [WpStored, storeChange, touch, assertion, wp_bind, wp_get, wp_pure,
    wp_require]
  refine ⟨fun _ => ?_, fun _ => ⟨fun r => by simp, Or.inr (.refl _ s)⟩⟩
  simp only [getKey]
  cases s.db.accountdata[LedgerKey.data f.mData.accountID f.mData.dataName]? with
  | none => exact ⟨fun r => by simp, Or.inr (.refl _ s)⟩
  | some row =>
    simp only [wp_bind, wp_modify, wp_updateDelta]
    exact ⟨fun δ hδ => (sameCached_accountdata _).stored rfl rfl
      (Or.inl ⟨rfl, rfl, hδ⟩),
      fun _ => ⟨fun r => by simp, Or.inr ((sameCached_accountdata _).halted rfl)⟩⟩

theorem wp_storeAdd : WpStored .add d f.getKey s (f.storeAdd d) := by
  simp only [WpStored, storeAdd, touch, assertion, wp_bind, wp_get, wp_pure,
    wp_require]
  refine ⟨fun _ => ?_, fun _ => ⟨fun r => by simp, Or.inr (.refl _ s)⟩⟩
  simp only [getKey]
  cases s.db.accountdata[LedgerKey.data f.mData.accountID f.mData.dataName]? with
  | some row => exact ⟨fun r => by simp, Or.inr (.refl _ s)⟩
  | none =>
    simp only [wp_bind, wp_modify, wp_updateDelta]
    exact ⟨fun δ hδ => (sameCached_accountdata _).stored rfl rfl
      (Or.inr (Or.inl ⟨rfl, rfl, hδ⟩)),
      fun _ => ⟨fun r => by simp, Or.inr ((sameCached_accountdata _).halted rfl)⟩⟩

end DataFrame

theorem ReversedPaymentFrame.wp_storeAdd {rID : ℤ} :
    WpStored .add d (.reversedPayment rID) s (ReversedPaymentFrame.storeAdd d rID) := by
  simp only [WpStored, ReversedPaymentFrame.storeAdd, touch, assertion, wp_bind, wp_get,
    wp_pure, wp_require]
  refine ⟨fun _ => ?_, fun _ => ⟨fun r => by simp, Or.inr (.refl _ s)⟩⟩
  cases s.db.reversedPayment[rID]? with
  | some row => exact ⟨fun r => by simp, Or.inr (.refl _ s)⟩
  | none =>
    simp only [wp_bind, wp_modify, wp_updateDelta]
    exact ⟨fun δ hδ => (sameCached_reversedPayment _).stored rfl rfl
      (Or.inr (Or.inl ⟨rfl, rfl, hδ⟩)),
      fun _ => ⟨fun r => by simp, Or.inr ((sameCached_reversedPayment _).halted rfl)⟩⟩

end Stores

/-! ## Loads -/

/-- What a load does: an entry that comes into the cache is the row. -/
structure Loaded (d : ℕ) (s s' : LedgerState) : Prop where
  db : s'.db = s.db
  cache : ∀ k v, (k, v) ∈ s'.mEntryCache → (k, v) ∈ s.mEntryCache ∨ v = s.db.select k
  delta : ∀ i ≠ d, s'.deltas i = s.deltas i
  same : ∀ k, (s.deltas d).Same k (s'.deltas d)
  header : (s.deltas d).SameHeader (s'.deltas d)
  wf : (s.deltas d).WellFormed → (s'.deltas d).WellFormed
  ledger : s'.mCurrentLedger = s.mCurrentLedger
  history : s'.txhistory = s.txhistory

section Loads

variable {s t u : LedgerState} {d : ℕ}

theorem Loaded.refl (s : LedgerState) : Loaded d s s :=
  ⟨rfl, fun _ _ h => Or.inl h, fun _ _ => rfl, fun k => .refl k _, ⟨rfl, rfl⟩, fun h => h, rfl, rfl⟩

theorem Loaded.trans (h : Loaded d s t) (h' : Loaded d t u) : Loaded d s u := by
  refine ⟨h'.db.trans h.db, fun k v hmem => ?_, fun i hi => (h'.delta i hi).trans (h.delta i hi),
    fun k => (h.same k).trans (h'.same k),
    ⟨h'.header.1.trans h.header.1, h'.header.2.trans h.header.2⟩, fun hwf => h'.wf (h.wf hwf),
    h'.ledger.trans h.ledger, h'.history.trans h.history⟩
  rcases h'.cache k v hmem with hmem | heq
  · exact h.cache k v hmem
  · exact Or.inr (h.db ▸ heq)

/-- An entry moves to the front, or the row is put there. -/
theorem Loaded.of_cache {cache : List (LedgerKey × Option LedgerEntry)}
    (h : ∀ k v, (k, v) ∈ cache → (k, v) ∈ s.mEntryCache ∨ v = s.db.select k) :
    Loaded d s { s with mEntryCache := cache } :=
  ⟨rfl, h, fun _ _ => rfl, fun k => .refl k _, ⟨rfl, rfl⟩, fun h => h, rfl, rfl⟩

theorem Loaded.of_recordEntry (d : ℕ) (entry : LedgerEntry) :
    Loaded d s { s with
      deltas := Function.update s.deltas d ((s.deltas d).recordEntry entry) } := by
  refine ⟨rfl, fun _ _ h => Or.inl h, fun i hi => Function.update_of_ne hi _ _, fun k => ?_, ?_,
    fun hwf => ?_, rfl, rfl⟩
  · simp only [Function.update_self]
    exact .refl k (s.deltas d)
  · simp only [Function.update_self]
    exact ⟨rfl, rfl⟩
  · simp only [Function.update_self]
    exact ⟨hwf.new, hwf.mod, hwf.disjoint⟩

/-- How a load ends, also one that throws. -/
def WpLoaded (d : ℕ) {α : Type} (x : LedgerM α) : Prop :=
  ∀ s, wp x (fun _ s' => Loaded d s s') (fun e s' => (∀ r, e ≠ .opFailed r) ∧ Loaded d s s') s

theorem wp_getCachedEntry {k : LedgerKey} {s : LedgerState}
    {E : Exit → LedgerState → Prop} :
    wp (getCachedEntry k) (fun r s' => Loaded d s s' ∧ ∀ p, r = some p → (k, p) ∈ s.mEntryCache)
      E s := by
  simp only [getCachedEntry, wp_bind, wp_get]
  cases hlookup : s.mEntryCache.lookup k with
  | none => exact ⟨.refl s, by simp⟩
  | some p =>
    have hin : (k, p) ∈ s.mEntryCache := by
      obtain ⟨l₁, l₂, heq, -⟩ := List.lookup_eq_some_iff.mp hlookup
      rw [heq]
      simp
    simp only [wp_bind, wp_set, wp_pure]
    refine ⟨.of_cache fun k' v hmem => Or.inl ?_, fun p' hp => Option.some.inj hp ▸ hin⟩
    rcases List.mem_cons.mp hmem with heq | hmem
    · cases heq
      exact hin
    · exact (mem_eraseCached.mp hmem).1

/-- The row is put into the cache. -/
theorem loaded_putCachedEntry {k : LedgerKey} {p : Option LedgerEntry} {s : LedgerState}
    (hp : p = s.db.select k) :
    Loaded d s { s with
      mEntryCache := ((k, p) :: eraseCached s.mEntryCache k).take ENTRY_CACHE_SIZE } := by
  refine .of_cache fun k' v hmem => ?_
  rcases List.mem_cons.mp (List.mem_of_mem_take hmem) with heq | hmem
  · cases heq
    exact Or.inr hp
  · exact Or.inl (mem_eraseCached.mp hmem).1

theorem AccountFrame.mEntry_of_ofEntry {entry : LedgerEntry} {b : Bool} {f : AccountFrame}
    (h : AccountFrame.ofEntry entry b = some f) : f.mEntry = entry := by
  unfold ofEntry at h
  split at h
  · rename_i a ha
    cases h
    rw [mEntry, ← ha]
  · cases h

theorem TrustFrame.mEntry_of_ofEntry {entry : LedgerEntry} {f : TrustFrame}
    (h : TrustFrame.ofEntry entry = some f) : f.mEntry = entry := by
  unfold ofEntry at h
  split at h
  · rename_i tl htl
    cases h
    rw [mEntry, ← htl]
  · cases h

theorem AccountFrame.ofEntry_selectAccount {db : Database} {id : AccountID} {b : Bool} :
    (db.selectAccount id).bind (AccountFrame.ofEntry · b) = none →
      db.select (.account id) = none := by
  simp only [Database.select, Database.selectAccount]
  cases db.accounts[id]? <;> simp [ofEntry]

theorem TrustFrame.ofEntry_selectTrustLine {db : Database} {id : AccountID} {asset : Asset} :
    (db.selectTrustLine (.trustLine id asset)).bind TrustFrame.ofEntry = none →
      db.select (.trustLine id asset) = none := by
  simp only [Database.select, Database.selectTrustLine]
  cases db.trustlines[LedgerKey.trustLine id asset]? <;> simp [ofEntry]

/-- A load, and another one. -/
theorem WpLoaded.bind {α β : Type} {x : LedgerM α} {f : α → LedgerM β} (hx : WpLoaded d x)
    (hf : ∀ a, WpLoaded d (f a)) : WpLoaded d (x >>= f) := by
  intro s
  rw [wp_bind]
  refine wp_mono (hx s) (fun a t ht => ?_) fun _ _ h => h
  exact wp_mono (hf a t) (fun _ _ h => ht.trans h) fun _ _ h => ⟨h.1, ht.trans h.2⟩

theorem WpLoaded.pure {α : Type} (a : α) : WpLoaded d (pure a : LedgerM α) := fun s => .refl s

theorem wpLoaded_recordEntry (d : ℕ) (entry : LedgerEntry) : WpLoaded d (recordEntry d entry) := by
  intro s
  simp only [recordEntry, wp_updateDelta]
  exact ⟨fun δ hδ => Option.some.inj hδ ▸ .of_recordEntry d entry, nofun⟩

theorem AccountFrame.wpLoaded_loadAccountDb (id : AccountID) : WpLoaded d (loadAccountDb id) := by
  intro s
  simp only [loadAccountDb, wp_bind]
  refine wp_mono (wp_getCachedEntry (d := d)) (fun r t ht => ?_) fun _ _ h => h
  obtain ⟨ht, -⟩ := ht
  cases r with
  | some p => exact ht
  | none =>
    simp only [wp_bind, wp_get]
    cases hf : (t.db.selectAccount id).bind (AccountFrame.ofEntry · false) with
    | none =>
      simp only [putCachedEntry, wp_bind, wp_modify, wp_pure]
      exact ht.trans (loaded_putCachedEntry (ofEntry_selectAccount hf).symm)
    | some f =>
      simp only [assertion, putCachedEntry, wp_bind, wp_require, wp_modify, wp_pure]
      refine ⟨fun _ => ht.trans (loaded_putCachedEntry ?_), fun _ => ⟨fun r => by simp, ht⟩⟩
      obtain ⟨entry, hentry, hf⟩ := Option.bind_eq_some_iff.mp hf
      rw [mEntry_of_ofEntry hf]
      exact hentry.symm

theorem AccountFrame.wpLoaded_loadAccount (d : ℕ) (id : AccountID) :
    WpLoaded d (loadAccount d id) := by
  refine (wpLoaded_loadAccountDb id).bind fun f => ?_
  cases f with
  | none => exact .pure _
  | some f => exact (wpLoaded_recordEntry d _).bind fun _ => .pure _

theorem TrustFrame.wpLoaded_loadTrustLine (d : ℕ) (id : AccountID) (asset : Asset) :
    WpLoaded d (loadTrustLine d id asset) := by
  intro s
  simp only [loadTrustLine, wp_ite, wp_throw]
  refine ⟨fun _ => ⟨fun r => by simp, .refl s⟩, fun _ => ?_⟩
  rw [wp_bind]
  refine wp_mono (wp_getCachedEntry (d := d)) (fun r t ht => ?_) fun _ _ h => h
  obtain ⟨ht, -⟩ := ht
  cases r with
  | some p =>
    simp only
    cases p.bind ofEntry with
    | none => exact ht
    | some f =>
      simp only [assertion, wp_bind, wp_require, wp_pure]
      exact ⟨fun _ => ht, fun _ => ⟨fun r => by simp, ht⟩⟩
  | none =>
    simp only [wp_bind, wp_get]
    cases hf : (t.db.selectTrustLine (.trustLine id asset)).bind ofEntry with
    | none =>
      simp only [putCachedEntry, wp_bind, wp_modify, wp_pure]
      exact ht.trans (loaded_putCachedEntry (ofEntry_selectTrustLine hf).symm)
    | some f =>
      simp only [wp_ite, wp_throw, putCachedEntry, wp_bind, wp_modify, wp_pure]
      refine ⟨fun _ => ⟨fun r => by simp, ht⟩, fun _ => ?_⟩
      obtain ⟨entry, hentry, hf⟩ := Option.bind_eq_some_iff.mp hf
      have hput := ht.trans (loaded_putCachedEntry (p := some f.mEntry)
        (k := .trustLine id asset) ((mEntry_of_ofEntry hf).symm ▸ hentry.symm))
      exact wp_mono (wpLoaded_recordEntry d f.mEntry _) (fun _ _ h => hput.trans h)
        fun _ _ h => ⟨h.1, hput.trans h.2⟩

theorem OfferFrame.wpLoaded_loadOffer (d : ℕ) (sellerID : AccountID) (offerID : ℕ) :
    WpLoaded d (loadOffer d sellerID offerID) := by
  intro s
  simp only [loadOffer, wp_bind, wp_get]
  cases (s.db.offers[offerID]?.filter (·.entry.sellerID = sellerID)).map ofRow with
  | none => exact .refl s
  | some f =>
    simp only [wp_ite, wp_throw]
    refine ⟨fun _ => ⟨fun r => by simp, .refl s⟩, fun _ => ?_⟩
    exact (wpLoaded_recordEntry d f.mEntry).bind (fun _ => .pure _) s

theorem OfferFrame.wpLoaded_loadBestOffers (computePrice : Price → ℤ) (numOffers offset : ℕ)
    (selling buying : Asset) :
    WpLoaded d (loadBestOffers computePrice numOffers offset selling buying) := by
  intro s
  simp only [loadBestOffers, wp_bind, wp_get, wp_ite, wp_throw, wp_pure]
  exact ⟨fun _ => ⟨fun r => by simp, .refl s⟩, fun _ => .refl s⟩

theorem DataFrame.wpLoaded_loadData (id : AccountID) (dataName : XString) :
    WpLoaded d (loadData id dataName) := fun s => .refl s

end Loads

end SmartCore.Ledger
