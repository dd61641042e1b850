import SmartCore.Transactions.CrossOffer
import SmartCore.Transactions.Operations
import SmartCore.Transactions.Tidy

/-!
# Commissions

What a payment pays is split: the commission goes to the commission account and the rest to the
destination. `doCheckValid` compares the two by a subtraction, and the subtraction is made in 64
bits, so an amount near the lower end of the range becomes a large positive one. A path payment of
such an amount passes every check (`wrapped_path_payment`).

The two credits are written one after the other, each from a frame loaded before. If the destination
is the commission account itself, the second write hides the first.

Main result: `credits_iff`. A payment that is accepted and credited has been split exactly if and
only if nothing wraps around and no write is hidden.
-/

namespace SmartCore.Transactions

open SmartCore.Ledger OfferExchange

variable {app : Application} {s t u : LedgerState} {d : ℕ}

/-! ## The check -/

namespace PathPaymentOpFrame

/-- The amounts of a fee fit into 64 bits, as every amount does that the source can hold. -/
def FeeInRange (fee : OperationFee) : Prop := InRange (commission fee)

/-- The commission is a part of a positive amount. -/
def Splits (fee : OperationFee) (amount : ℤ) : Prop :=
  0 ≤ commission fee ∧ commission fee < amount ∧ 0 < amount

theorem wp_checkFee {fee : OperationFee} {asset : Asset} {amount : ℤ}
    {malformed : OperationResultTr} (hamount : InRange amount) :
    wp (checkFee fee asset amount malformed)
      (fun _ t => t = s ∧ 0 ≤ commission fee ∧ 0 < int64 (amount - commission fee))
      (fun _ _ => True) s := by
  cases fee with
  | opFEE_NONE =>
    simp only [checkFee, wp_failIf, commission, sub_zero, int64_of_inRange hamount]
    exact ⟨fun _ => trivial, fun hpos => ⟨trivial, le_rfl, not_le.mp hpos⟩⟩
  | opFEE_CHARGED feeAsset amountToCharge =>
    simp only [checkFee, wp_bind, wp_failIf, commission]
    exact ⟨fun _ => trivial, fun _ => ⟨fun _ => trivial, fun hnonneg => ⟨fun _ => trivial,
      fun hpos => ⟨trivial, not_lt.mp hnonneg, not_le.mp hpos⟩⟩⟩⟩

/-- **The check is exact unless the subtraction wraps around.** -/
theorem splits_iff {fee : OperationFee} {amount : ℤ} (hamount : InRange amount)
    (hnonneg : 0 ≤ commission fee) (hpos : 0 < int64 (amount - commission fee)) :
    Splits fee amount ↔ INT64_MIN ≤ amount - commission fee := by
  constructor
  · rintro ⟨-, hlt, -⟩
    unfold INT64_MIN
    omega
  · intro hmin
    have hmax : amount - commission fee ≤ INT64_MAX := by
      obtain ⟨-, hmax⟩ := hamount
      omega
    rw [int64_of_inRange ⟨hmin, hmax⟩] at hpos
    exact ⟨hnonneg, by omega, by omega⟩

end PathPaymentOpFrame

/-! ## Preparing the accounts and the lines -/

/-- The key of an account is in its row. -/
def KeyedAccounts (s : LedgerState) : Prop :=
  ∀ (id : AccountID) (row : Row AccountEntry), s.db.accounts[id]? = some row →
    row.entry.accountID = id

/-- No balance of a line changes. Lines that are added have none. -/
structure SameLines (s t : LedgerState) : Prop where
  coherent : Coherent s → Coherent t
  keyedAccounts : KeyedAccounts s → KeyedAccounts t
  line : ∀ (k : LedgerKey) (row : Row TrustLineEntry), s.db.trustlines[k]? = some row →
    ∃ row' : Row TrustLineEntry, t.db.trustlines[k]? = some row' ∧
      row'.entry.accountID = row.entry.accountID ∧ row'.entry.asset = row.entry.asset ∧
        row'.entry.balance = row.entry.balance
  newLine : ∀ (id : AccountID) (asset : Asset) (row : Row TrustLineEntry),
    s.db.trustlines[LedgerKey.trustLine id asset]? = none →
    t.db.trustlines[LedgerKey.trustLine id asset]? = some row →
      row.entry.accountID = id ∧ row.entry.asset = asset ∧ row.entry.balance = 0

/-- What is needed to load the accounts and the lines. -/
structure Readable (s : LedgerState) : Prop where
  coherent : Coherent s
  keyedAccounts : KeyedAccounts s
  keyedLines : KeyedLines s

namespace SameLines

theorem refl (s : LedgerState) : SameLines s s :=
  ⟨fun h => h, fun h => h, fun _ row h => ⟨row, h, rfl, rfl, rfl⟩,
    fun _ _ _ h h' => (by rw [h] at h'; cases h')⟩

theorem of_lines (hcoherent : Coherent s → Coherent t)
    (hkeyed : KeyedAccounts s → KeyedAccounts t)
    (hlines : t.db.trustlines = s.db.trustlines) : SameLines s t := by
  have h := refl s
  refine ⟨hcoherent, hkeyed, ?_, ?_⟩
  · rw [hlines]
    exact h.line
  · rw [hlines]
    exact h.newLine

theorem trans (h : SameLines s t) (h' : SameLines t u) : SameLines s u := by
  refine ⟨fun hs => h'.coherent (h.coherent hs), fun hs => h'.keyedAccounts (h.keyedAccounts hs),
    fun k row hrow => ?_, fun id asset row hnone hrow => ?_⟩
  · obtain ⟨row', hrow', hid, hasset, hbalance⟩ := h.line k row hrow
    obtain ⟨row'', hrow'', hid', hasset', hbalance'⟩ := h'.line k row' hrow'
    exact ⟨row'', hrow'', hid'.trans hid, hasset'.trans hasset, hbalance'.trans hbalance⟩
  · cases hmid : t.db.trustlines[LedgerKey.trustLine id asset]? with
    | none => exact h'.newLine id asset row hmid hrow
    | some row' =>
      obtain ⟨row'', hrow'', hid, hasset, hbalance⟩ := h'.line _ row' hmid
      obtain ⟨hid', hasset', hbalance'⟩ := h.newLine id asset row' hnone hmid
      rw [hrow] at hrow''
      rw [Option.some.inj hrow'']
      exact ⟨hid.trans hid', hasset.trans hasset', hbalance.trans hbalance'⟩

theorem keyedLines (h : SameLines s t) (hs : KeyedLines s) : KeyedLines t := by
  intro id asset row hrow
  cases hold : s.db.trustlines[LedgerKey.trustLine id asset]? with
  | none => exact ⟨(h.newLine id asset row hold hrow).1, (h.newLine id asset row hold hrow).2.1⟩
  | some row' =>
    obtain ⟨row'', hrow'', hid, hasset, -⟩ := h.line _ row' hold
    rw [hrow] at hrow''
    rw [Option.some.inj hrow'', hid, hasset]
    exact hs id asset row' hold

theorem readable (h : SameLines s t) (hs : Readable s) : Readable t :=
  ⟨h.coherent hs.coherent, h.keyedAccounts hs.keyedAccounts, h.keyedLines hs.keyedLines⟩

theorem holding {asset : Asset} (h : SameLines s t) (hne : asset ≠ .native) (id : AccountID) :
    holding t.db id asset = holding s.db id asset := by
  rw [OfferExchange.holding, OfferExchange.holding, if_neg hne, if_neg hne]
  cases hrow : s.db.trustlines[LedgerKey.trustLine id asset]? with
  | none =>
    cases hrow' : t.db.trustlines[LedgerKey.trustLine id asset]? with
    | none => rfl
    | some row => exact (h.newLine id asset row hrow hrow').2.2
  | some row =>
    obtain ⟨row', hrow', -, -, hbalance⟩ := h.line _ row hrow
    rw [hrow']
    exact hbalance

end SameLines

/-- No balance changes. Accounts and lines that are added have none. -/
structure Prepared (s t : LedgerState) : Prop extends SameLines s t where
  account : ∀ (id : AccountID) (row : Row AccountEntry), s.db.accounts[id]? = some row →
    ∃ row' : Row AccountEntry, t.db.accounts[id]? = some row' ∧
      row'.entry.balance = row.entry.balance
  newAccount : ∀ (id : AccountID) (row : Row AccountEntry), s.db.accounts[id]? = none →
    t.db.accounts[id]? = some row → row.entry.balance = 0

namespace Prepared

theorem refl (s : LedgerState) : Prepared s s :=
  ⟨.refl s, fun _ row h => ⟨row, h, rfl⟩, fun _ _ h h' => (by rw [h] at h'; cases h')⟩

/-- Only lines are changed. -/
theorem of_accounts (h : SameLines s t) (haccounts : t.db.accounts = s.db.accounts) :
    Prepared s t := by
  refine ⟨h, ?_, ?_⟩
  · rw [haccounts]
    exact (refl s).account
  · rw [haccounts]
    exact (refl s).newAccount

theorem of_rows (hcoherent : Coherent s → Coherent t) (haccounts : t.db.accounts = s.db.accounts)
    (htrustlines : t.db.trustlines = s.db.trustlines) : Prepared s t := by
  refine of_accounts (.of_lines hcoherent ?_ htrustlines) haccounts
  unfold KeyedAccounts
  rw [haccounts]
  exact fun h => h

theorem of_loaded (h : Loaded d s t) : Prepared s t :=
  of_rows (fun hs => hs.loaded h) (by rw [h.db]) (by rw [h.db])

theorem trans (h : Prepared s t) (h' : Prepared t u) : Prepared s u := by
  refine ⟨h.toSameLines.trans h'.toSameLines, fun id row hrow => ?_, fun id row hnone hrow => ?_⟩
  · obtain ⟨row', hrow', hbalance⟩ := h.account id row hrow
    obtain ⟨row'', hrow'', hbalance'⟩ := h'.account id row' hrow'
    exact ⟨row'', hrow'', hbalance'.trans hbalance⟩
  · cases hmid : t.db.accounts[id]? with
    | none => exact h'.newAccount id row hmid hrow
    | some row' =>
      obtain ⟨row'', hrow'', hbalance⟩ := h'.account id row' hmid
      rw [hrow] at hrow''
      rw [Option.some.inj hrow'', hbalance]
      exact h.newAccount id row' hnone hmid

theorem holding (h : Prepared s t) (id : AccountID) (asset : Asset) :
    holding t.db id asset = holding s.db id asset := by
  by_cases hnative : asset = .native
  · rw [OfferExchange.holding, OfferExchange.holding, if_pos hnative, if_pos hnative]
    cases hrow : s.db.accounts[id]? with
    | none =>
      cases hrow' : t.db.accounts[id]? with
      | none => rfl
      | some row => exact h.newAccount id row hrow hrow'
    | some row =>
      obtain ⟨row', hrow', hbalance⟩ := h.account id row hrow
      rw [hrow']
      exact hbalance
  · exact h.toSameLines.holding hnative id

theorem shows {f : AccountFrame} {id : AccountID} (h : Prepared s t) (hf : Shows f s id) :
    Shows f t id := by
  obtain ⟨hid, row, hrow, hbalance⟩ := hf
  obtain ⟨row', hrow', hbalance'⟩ := h.account id row hrow
  exact ⟨hid, row', hrow', hbalance'.trans hbalance⟩

end Prepared

/-- The frame is that of the line. -/
structure ShowsLine (f : TrustFrame) (s : LedgerState) (id : AccountID) (asset : Asset) : Prop where
  ofAccount : f.mTrustLine.accountID = id
  inAsset : f.mTrustLine.asset = asset
  row : ∃ row, s.db.trustlines[LedgerKey.trustLine id asset]? = some row ∧
    row.entry.balance = f.mTrustLine.balance

theorem Prepared.showsLine {f : TrustFrame} {id : AccountID} {asset : Asset} (h : Prepared s t)
    (hf : ShowsLine f s id asset) : ShowsLine f t id asset := by
  obtain ⟨hid, hasset, row, hrow, hbalance⟩ := hf
  obtain ⟨row', hrow', -, -, hbalance'⟩ := h.line _ row hrow
  exact ⟨hid, hasset, row', hrow', hbalance'.trans hbalance⟩

/-- Storing an account leaves the lines as they are, and its balance too if that is not changed. -/
theorem wp_storeChange_prepared {f : AccountFrame} :
    wp (f.storeChange d) (fun g t => SameLines s t ∧ g.getID = f.getID ∧
      ∀ id, Shows f s id → Prepared s t ∧ Shows g t id) (fun _ _ => True) s := by
  refine wp_mono (wp_and AccountFrame.wp_storeChange_row (AccountFrame.wp_storeChange (d := d)))
    (fun g t ht => ?_) fun _ _ _ => trivial
  obtain ⟨⟨hwrote, lastModified, rfl⟩, hstored⟩ := ht
  obtain ⟨row₀, lastmodified, hrow₀, hput, hother⟩ := hwrote.row
  have hlines : SameLines s t := by
    refine .of_lines hstored.kept.coherent (fun hkeyed id' row' hrow' => ?_) hwrote.trustlines
    by_cases hids : id' = f.getID
    · rw [hids, hput] at hrow'
      rw [← Option.some.inj hrow', hids]
      rfl
    · rw [hother id' hids] at hrow'
      exact hkeyed id' row' hrow'
  refine ⟨hlines, rfl, fun id hf => ?_⟩
  obtain ⟨hid, row, hrow, hbalance⟩ := hf
  rw [hid] at hput hother
  refine ⟨⟨hlines, fun id' row' hrow' => ?_, fun id' row' hnone hrow' => ?_⟩, hid, _, hput, rfl⟩
  · by_cases hids : id' = id
    · subst hids
      rw [hrow] at hrow'
      refine ⟨_, hput, ?_⟩
      rw [← Option.some.inj hrow', hbalance]
      rfl
    · exact ⟨row', by rw [hother id' hids, hrow'], rfl⟩
  · have hids : id' ≠ id := by
      rintro rfl
      rw [hrow] at hnone
      cases hnone
    rw [hother id' hids, hnone] at hrow'
    cases hrow'

/-- Adding an account. -/
theorem wp_storeAdd_account {f : AccountFrame} (hzero : f.getBalance = 0) :
    wp (f.storeAdd d) (fun g t => Prepared s t ∧ Shows g t f.getID) (fun _ _ => True) s := by
  have hrows : wp (f.storeAdd d) (fun g t => s.db.accounts[f.getID]? = none ∧
      (∃ row, Put s.db.accounts t.db.accounts f.getID row ∧ row.entry.accountID = f.getID ∧
        row.entry.balance = 0) ∧
      t.db.trustlines = s.db.trustlines ∧ g.getID = f.getID ∧ g.getBalance = 0)
      (fun _ _ => True) s := by
    simp only [AccountFrame.storeAdd, assertion, touch, flushCachedEntry, wp_bind,
      wp_require, wp_get, wp_modify, wp_pure, AccountFrame.getKey, AccountFrame.getID]
    refine ⟨fun _ => ⟨fun _ => ?_, fun _ => trivial⟩, fun _ => trivial⟩
    cases hrow : s.db.accounts[f.mAccountEntry.accountID]? with
    | some row => trivial
    | none =>
      simp only [wp_bind, wp_modify, wp_updateDelta, wp_runIf, wp_pure]
      refine ⟨fun δ _ => ⟨fun hupdate => ?_, fun _ => ?_⟩, fun _ => trivial⟩
      · simp only [AccountFrame.applySigners, AccountFrame.getID, flushCachedEntry, wp_bind, wp_get,
          Std.ExtTreeMap.getElem?_insert_self, AccountFrame.toRow, wp_ite, wp_throw, wp_modify,
          wp_pure]
        exact ⟨fun _ => trivial, fun _ =>
          ⟨fun _ => ⟨trivial, ⟨_, (put_insert _ _ _).insert _, rfl, hzero⟩, trivial, rfl, hzero⟩,
            fun _ => ⟨trivial, ⟨_, put_insert _ _ _, rfl, hzero⟩, trivial, rfl, hzero⟩⟩⟩
      · exact ⟨trivial, ⟨_, put_insert _ _ _, rfl, hzero⟩, trivial, rfl, hzero⟩
  refine wp_mono (wp_and hrows (AccountFrame.wp_storeAdd (d := d))) (fun g t ht => ?_)
    fun _ _ _ => trivial
  obtain ⟨⟨hnone, ⟨row, ⟨hput, hother⟩, hkey, hbalance⟩, hlines, hid, hg⟩, hstored⟩ := ht
  have hlines' : SameLines s t := by
    refine .of_lines hstored.kept.coherent (fun hkeyed id' row' hrow' => ?_) hlines
    by_cases hids : id' = f.getID
    · rw [hids, hput] at hrow'
      rw [← Option.some.inj hrow', hids]
      exact hkey
    · rw [hother id' hids] at hrow'
      exact hkeyed id' row' hrow'
  refine ⟨⟨hlines', fun id' row' hrow' => ?_, fun id' row' hnone' hrow' => ?_⟩, hid, row, hput,
    by rw [hbalance, hg]⟩
  · have hids : id' ≠ f.getID := by
      rintro rfl
      rw [hnone] at hrow'
      cases hrow'
    exact ⟨row', by rw [hother id' hids, hrow'], rfl⟩
  · by_cases hids : id' = f.getID
    · rw [hids, hput] at hrow'
      rw [← Option.some.inj hrow', hbalance]
    · rw [hother id' hids, hnone'] at hrow'
      cases hrow'

/-- Adding a line without a balance. -/
theorem wp_storeAdd_line {f : TrustFrame} (hzero : f.mTrustLine.balance = 0) :
    wp (f.storeAdd d)
      (fun g t => Prepared s t ∧ ShowsLine g t f.mTrustLine.accountID f.mTrustLine.asset)
      (fun _ _ => True) s := by
  have hrows : wp (f.storeAdd d) (fun g t => s.db.trustlines[f.getKey]? = none ∧
      (∃ lastModified, Put s.db.trustlines t.db.trustlines f.getKey
        ⟨f.mTrustLine, lastModified⟩) ∧
      t.db.accounts = s.db.accounts ∧ g.mTrustLine = f.mTrustLine) (fun _ _ => True) s := by
    simp only [TrustFrame.storeAdd, touch, assertion, flushCachedEntry, wp_bind,
      wp_require, wp_get, wp_modify, wp_pure, wp_ite, wp_throw, TrustFrame.getKey]
    refine ⟨fun _ => trivial, fun _ => ⟨fun _ => ?_, fun _ => trivial⟩⟩
    cases hrow :
        s.db.trustlines[LedgerKey.trustLine f.mTrustLine.accountID f.mTrustLine.asset]? with
    | some row => trivial
    | none =>
      simp only [wp_bind, wp_modify, wp_updateDelta, wp_pure]
      exact ⟨fun _ _ => ⟨trivial, ⟨_, put_insert _ _ _⟩, trivial, rfl⟩, fun _ => trivial⟩
  refine wp_mono (wp_and hrows (TrustFrame.wp_storeAdd (d := d))) (fun g t ht => ?_)
    fun _ _ _ => trivial
  obtain ⟨⟨hnone, ⟨lastModified, hput, hother⟩, haccounts, hg⟩, hstored⟩ := ht
  rw [TrustFrame.getKey] at hnone hput hother
  refine ⟨.of_accounts ⟨hstored.kept.coherent, fun hkeyed => ?_, fun k row hrow => ?_,
    fun id asset row hnone' hrow => ?_⟩ haccounts, ?_⟩
  · unfold KeyedAccounts
    rw [haccounts]
    exact hkeyed
  · have hk : k ≠ LedgerKey.trustLine f.mTrustLine.accountID f.mTrustLine.asset := by
      rintro rfl
      rw [hnone] at hrow
      cases hrow
    exact ⟨row, by rw [hother k hk, hrow], rfl, rfl, rfl⟩
  · by_cases hk : LedgerKey.trustLine id asset =
        LedgerKey.trustLine f.mTrustLine.accountID f.mTrustLine.asset
    · rw [hk, hput] at hrow
      injection hk with hid hasset
      rw [← Option.some.inj hrow, hid, hasset]
      exact ⟨rfl, rfl, hzero⟩
    · rw [hother _ hk, hnone'] at hrow
      cases hrow
  · rw [← hg]
    exact ⟨rfl, rfl, _, by rw [hg]; exact hput, by rw [hg]⟩

theorem wp_loadAccount_prepared (h : Readable s) (id : AccountID) :
    wp (AccountFrame.loadAccount d id)
      (fun r t => Prepared s t ∧ ∀ f, r = some f → Shows f t id) (fun _ _ => True) s := by
  refine wp_mono (AccountFrame.wp_loadAccount_row h.coherent d id) (fun r t ht => ?_)
    fun _ _ _ => trivial
  obtain ⟨⟨b, hr⟩, hloaded⟩ := ht
  refine ⟨.of_loaded hloaded, fun f hf => ?_⟩
  rw [hr] at hf
  obtain ⟨row, hrow, rfl⟩ := Option.map_eq_some_iff.mp hf
  exact ⟨h.keyedAccounts id row hrow, row, by rw [hloaded.db, hrow], rfl⟩

theorem wp_loadTrustLine_prepared (h : Readable s) (id : AccountID) (asset : Asset) :
    wp (TrustFrame.loadTrustLine d id asset)
      (fun r t => Prepared s t ∧ ∀ f, r = some f → ShowsLine f t id asset)
      (fun _ _ => True) s := by
  refine wp_mono (TrustFrame.wp_loadTrustLine_row h.coherent d id asset) (fun r t ht => ?_)
    fun _ _ _ => trivial
  obtain ⟨hr, -, hloaded⟩ := ht
  refine ⟨.of_loaded hloaded, fun f hf => ?_⟩
  rw [hr] at hf
  obtain ⟨row, hrow, rfl⟩ := Option.map_eq_some_iff.mp hf
  obtain ⟨hid, hasset⟩ := h.keyedLines id asset row hrow
  exact ⟨hid, hasset, row, by rw [hloaded.db, hrow], rfl⟩

theorem wp_loadTrustLineIssuer_prepared (h : Readable s) (id : AccountID) (asset : Asset) :
    wp (TrustFrame.loadTrustLineIssuer d id asset)
      (fun r t => Prepared s t ∧ ∀ f, r.1 = some f → ShowsLine f t id asset)
      (fun _ _ => True) s := by
  simp only [TrustFrame.loadTrustLineIssuer, wp_bind, wp_pure]
  refine wp_mono (wp_loadTrustLine_prepared h id asset) (fun r t ht => ?_) fun _ _ h => h
  refine wp_mono (wp_loadAccount_prepared (ht.1.readable h) _) (fun r' u hu => ?_) fun _ _ h => h
  exact ⟨ht.1.trans hu.1, fun f hf => hu.1.showsLine (ht.2 f hf)⟩

/-- The count changes, and nothing else. -/
theorem wp_addNumEntries_shows {f : AccountFrame} {count : ℤ} :
    wp (f.addNumEntries count) (fun r t => t = s ∧ ∀ g, r = some g → g.getID = f.getID ∧
      ∀ id, Shows f s id → Shows g s id) (fun _ _ => True) s := by
  simp only [AccountFrame.addNumEntries, getMinBalance, wp_ite, wp_throw, wp_bind, wp_get, wp_pure]
  refine ⟨fun _ => trivial, fun _ => ⟨fun _ => ⟨trivial, by simp⟩, fun _ => ⟨trivial, ?_⟩⟩⟩
  intro g hg
  rw [← Option.some.inj hg]
  exact ⟨rfl, fun id hf => ⟨hf.getID, hf.balance⟩⟩

/-- Storing a line writes its balance into its row. -/
theorem wp_storeChange_balance {f : TrustFrame} {id : AccountID} {asset : Asset}
    (hid : f.mTrustLine.accountID = id) (hasset : f.mTrustLine.asset = asset) :
    wp (f.storeChange d)
      (fun g t => (Coherent s → Coherent t) ∧ t.db.accounts = s.db.accounts ∧
        g.mTrustLine = f.mTrustLine ∧ ∃ row row' : Row TrustLineEntry,
          s.db.trustlines[LedgerKey.trustLine id asset]? = some row ∧
          Put s.db.trustlines t.db.trustlines (.trustLine id asset) row' ∧
          row'.entry.accountID = row.entry.accountID ∧ row'.entry.asset = row.entry.asset ∧
          row'.entry.balance = f.mTrustLine.balance)
      (fun _ _ => True) s := by
  have hkey : f.getKey = .trustLine id asset := by rw [TrustFrame.getKey, hid, hasset]
  have hreturns : wp (f.storeChange d) (fun g _ => g.mTrustLine = f.mTrustLine)
      (fun _ _ => True) s := by
    simp only [TrustFrame.storeChange, touch, assertion, flushCachedEntry, wp_bind,
      wp_require, wp_get, wp_modify, wp_pure, wp_ite, wp_throw]
    refine ⟨fun _ => trivial, fun _ => ⟨fun _ => ?_, fun _ => trivial⟩⟩
    split
    · trivial
    · simp only [wp_bind, wp_modify, wp_updateDelta, wp_pure]
      exact ⟨fun _ _ => rfl, fun _ => trivial⟩
  refine wp_mono (wp_and hreturns (wp_and TrustFrame.wp_storeChange_row
    (TrustFrame.wp_storeChange (d := d)))) (fun g t ht => ?_) fun _ _ _ => trivial
  obtain ⟨hg, hwrote, hstored⟩ := ht
  obtain ⟨row, lastModified, hrow, hput⟩ := hwrote.row
  rw [hkey] at hrow hput
  exact ⟨hstored.kept.coherent, hwrote.accounts, hg, row, _, hrow, hput, rfl, rfl, rfl⟩

/-- Storing a line with the balance that it has. -/
theorem wp_storeChange_line_prepared {f : TrustFrame} {id : AccountID} {asset : Asset}
    (hf : ShowsLine f s id asset) :
    wp (f.storeChange d) (fun g t => Prepared s t ∧ ShowsLine g t id asset)
      (fun _ _ => True) s := by
  obtain ⟨hid, hasset, row, hrow, hbalance⟩ := hf
  refine wp_mono (wp_storeChange_balance hid hasset) (fun g t ht => ?_) fun _ _ h => h
  obtain ⟨hcoherent, haccounts, hg, row₀, row', hrow₀, ⟨hput, hother⟩, hid', hasset', hbal⟩ := ht
  obtain rfl := Option.some.inj (hrow.symm.trans hrow₀)
  refine ⟨.of_accounts ⟨hcoherent, ?_, fun k row'' hrow'' => ?_,
      fun id' asset' row'' hnone hrow'' => ?_⟩ haccounts,
    by rw [hg, hid], by rw [hg, hasset], row', hput, by rw [hg, hbal]⟩
  · unfold KeyedAccounts
    rw [haccounts]
    exact fun h => h
  · by_cases hk : k = .trustLine id asset
    · rw [hk] at hrow'' ⊢
      obtain rfl := Option.some.inj (hrow.symm.trans hrow'')
      exact ⟨row', hput, hid', hasset', by rw [hbal, hbalance]⟩
    · exact ⟨row'', by rw [hother k hk, hrow''], rfl, rfl, rfl⟩
  · by_cases hk : LedgerKey.trustLine id' asset' = .trustLine id asset
    · rw [hk, hrow] at hnone
      cases hnone
    · rw [hother _ hk, hnone] at hrow''
      cases hrow''

/-- The account gets the line, if it has none; whether its balance stays is up to the frame. -/
theorem wp_changeTrust_prepared {account : AccountFrame} {asset : Asset} {id : AccountID}
    (h : Readable s) (hid : account.getID = id) :
    wp (ChangeTrustOpFrame.doApply d account { line := asset, limit := INT64_MAX })
      (fun r t => SameLines s t ∧ ShowsLine r.1 t id asset ∧
        (Shows account s id → Prepared s t ∧ Shows r.2 t id))
      (fun _ _ => True) s := by
  unfold ChangeTrustOpFrame.doApply
  rw [wp_bind, hid]
  refine wp_mono (wp_loadTrustLineIssuer_prepared h id asset) (fun r t ht => ?_) fun _ _ h => h
  obtain ⟨hprepared, hline⟩ := ht
  obtain ⟨_ | line, issuer⟩ := r
  · simp only [wp_bind, wp_failIf]
    refine ⟨fun _ => trivial, fun _ => ?_⟩
    cases issuer with
    | none => trivial
    | some issuer =>
      simp only [wp_bind]
      generalize (1 : ℤ) = count
      refine wp_mono wp_addNumEntries_shows (fun r u hu => ?_) fun _ _ h => h
      obtain ⟨rfl, hcounted⟩ := hu
      cases r with
      | none => trivial
      | some account' =>
        obtain ⟨hid', hshows⟩ := hcounted account' rfl
        simp only [wp_bind, wp_pure]
        refine wp_mono wp_storeChange_prepared (fun account'' v hv => ?_) fun _ _ h => h
        obtain ⟨hlines, hid'', hstored⟩ := hv
        refine wp_mono (wp_storeAdd_line ?_) (fun line x hx => ?_) fun _ _ h => h
        · rfl
        · refine ⟨(hprepared.toSameLines.trans hlines).trans hx.1.toSameLines, ?_, fun hf => ?_⟩
          · rw [← hid, ← hid', ← hid'']
            exact hx.2
          · obtain ⟨hv, hf'⟩ := hstored id (hshows id (hprepared.shows hf))
            exact ⟨(hprepared.trans hv).trans hx.1, hx.1.shows hf'⟩
  · have hshows := hline line rfl
    simp only [wp_bind, TrustFrame.getBalance, assertion, wp_require, wp_pure, wp_failIf]
    refine ⟨fun _ => ⟨fun _ => trivial, fun _ => ?_⟩, fun _ => trivial⟩
    rw [if_neg (by decide), wp_bind, wp_failIf]
    refine ⟨fun _ => trivial, fun _ => ?_⟩
    simp only [wp_bind, wp_pure]
    refine wp_mono (wp_storeChange_line_prepared ⟨hshows.ofAccount, hshows.inAsset, hshows.row⟩)
      (fun line' u hu => ?_) fun _ _ h => h
    have hboth := hprepared.trans hu.1
    exact ⟨hboth.toSameLines, hu.2, fun hf => ⟨hboth, hboth.shows hf⟩⟩

theorem wp_createTrustLine_prepared {account : AccountFrame} {asset : Asset} {id : AccountID}
    (h : Readable s) (hid : account.getID = id) :
    wp (createTrustLine app d account asset)
      (fun r t => ∀ line account', r = some (line, account') → SameLines s t ∧
        ShowsLine line t id asset ∧ (Shows account s id → Prepared s t ∧ Shows account' t id))
      (fun _ _ => True) s := by
  unfold createTrustLine
  rw [wp_tryCatch]
  refine wp_mono (Q := fun r t => ∀ line account', r = some (line, account') → SameLines s t ∧
    ShowsLine line t id asset ∧ (Shows account s id → Prepared s t ∧ Shows account' t id))
    (E := fun _ _ => True) ?_ (fun _ _ h => h) fun e t _ => ?_
  · simp only [ChangeTrustOpFrame.doCheckValid, wp_bind, wp_failIf, wp_pure]
    refine ⟨fun _ => trivial, fun _ => ⟨fun _ => trivial, fun _ => ?_⟩⟩
    refine wp_mono (wp_changeTrust_prepared h hid) (fun r t ht => ?_) fun _ _ h => h
    intro line account' heq
    rw [Option.some.inj heq] at ht
    exact ht
  · split <;> simp

theorem wp_createDestAccount_prepared {op : CreateAccountOp} (h : Readable s) :
    wp (CreateAccountOpFrame.createDestAccount d op)
      (fun f t => Prepared s t ∧ Shows f t op.destination) (fun _ _ => True) s := by
  unfold CreateAccountOpFrame.createDestAccount
  rw [wp_bind]
  refine wp_mono (wp_loadAccount_prepared h _) (fun r t ht => ?_) fun _ _ h => h
  simp only [getSourceAccount, wp_bind, wp_get, wp_deref, wp_failIf]
  refine ⟨fun source _ => ⟨fun _ => trivial, fun _ => ?_⟩, fun _ => trivial⟩
  cases r with
  | some f => trivial
  | none =>
    refine wp_mono (wp_storeAdd_account rfl) (fun f u hu => ?_) fun _ _ h => h
    exact ⟨ht.1.trans hu.1, hu.2⟩

theorem wp_createDestination_prepared {sourceID id : AccountID} (h : Readable s) :
    wp (PathPaymentOpFrame.createDestination app d sourceID id)
      (fun r t => ∀ f, r = some f → Prepared s t ∧ Shows f t id) (fun _ _ => True) s := by
  unfold PathPaymentOpFrame.createDestination
  dsimp only
  rw [wp_tryCatch]
  refine wp_mono (Q := fun r t => ∀ f, r = some f → Prepared s t ∧ Shows f t id)
    (E := fun _ _ => True) ?_ (fun _ _ h => h) fun e t _ => ?_
  · simp only [CreateAccountOpFrame.doCheckValid, wp_bind, wp_failIf, wp_pure]
    refine ⟨fun _ => trivial, fun _ => ?_⟩
    refine wp_mono (wp_createDestAccount_prepared h) (fun f t ht => ?_) fun _ _ h => h
    intro g hg
    rw [← Option.some.inj hg]
    exact ht
  · split <;> simp

theorem wp_loadDestination_prepared {sourceID : AccountID} {op : PathPaymentOp} (h : Readable s) :
    wp (PathPaymentOpFrame.loadDestination app d sourceID op)
      (fun f t => Prepared s t ∧ Shows f t op.destination) (fun _ _ => True) s := by
  unfold PathPaymentOpFrame.loadDestination
  rw [wp_bind]
  refine wp_mono (wp_loadAccount_prepared h _) (fun r t ht => ?_) fun _ _ h => h
  cases r with
  | some f => exact ⟨ht.1, ht.2 f rfl⟩
  | none =>
    dsimp only
    rw [wp_bind]
    refine wp_mono (wp_createDestination_prepared (ht.1.readable h)) (fun r u hu => ?_)
      fun _ _ h => h
    cases r with
    | none => trivial
    | some f =>
      obtain ⟨hprepared, hshows⟩ := hu f rfl
      have hboth := ht.1.trans hprepared
      dsimp only
      split_ifs
      · exact ⟨hboth, hshows⟩
      · rw [wp_bind]
        refine wp_mono (wp_createTrustLine_prepared (hboth.readable h) hshows.getID)
          (fun r v hv => ?_) fun _ _ h => h
        cases r with
        | none => trivial
        | some r =>
          obtain ⟨hprepared', hshows'⟩ := (hv r.1 r.2 rfl).2.2 hshows
          exact ⟨hboth.trans hprepared', hshows'⟩

theorem wp_loadDestLine_prepared {destination : AccountFrame} {op : PathPaymentOp} (h : Readable s)
    (hf : Shows destination s op.destination) :
    wp (PathPaymentOpFrame.loadDestLine app d destination op)
      (fun f t => Prepared s t ∧ ShowsLine f t op.destination op.destAsset)
      (fun _ _ => True) s := by
  unfold PathPaymentOpFrame.loadDestLine
  rw [wp_bind]
  refine wp_mono (wp_loadTrustLineIssuer_prepared h _ _) (fun r t ht => ?_) fun _ _ h => h
  obtain ⟨line, issuer⟩ := r
  cases issuer with
  | none => trivial
  | some issuer =>
    cases line with
    | some line => exact ⟨ht.1, ht.2 line rfl⟩
    | none =>
      simp only [wp_bind, wp_pure]
      refine wp_mono (wp_createTrustLine_prepared (ht.1.readable h) hf.getID)
        (fun r u hu => ?_) fun _ _ h => h
      refine (wp_deref _ _).mpr ⟨fun r' hr' => ?_, fun _ => trivial⟩
      obtain ⟨-, hline, hprepared⟩ := hu r'.1 r'.2 hr'
      exact ⟨ht.1.trans (hprepared (ht.1.shows hf)).1, hline⟩

theorem wp_getCommissionDest_prepared {commissionDest : AccountFrame} {asset : Asset}
    {id : AccountID} (h : Readable s) (hf : Shows commissionDest s id) :
    wp (PathPaymentOpFrame.getCommissionDest d commissionDest asset)
      (fun r t => Prepared s t ∧ ∀ f, r = some f → ShowsLine f t id asset)
      (fun _ _ => True) s := by
  unfold PathPaymentOpFrame.getCommissionDest
  generalize (1 : ℤ) = count
  rw [wp_bind, hf.getID]
  refine wp_mono (wp_loadTrustLine_prepared h id asset) (fun r t ht => ?_) fun _ _ h => h
  cases r with
  | some line => exact ⟨ht.1, ht.2⟩
  | none =>
    dsimp only
    rw [wp_bind]
    refine wp_mono (wp_loadAccount_prepared (ht.1.readable h) _) (fun r u hu => ?_) fun _ _ h => h
    have hboth := ht.1.trans hu.1
    rw [wp_bind, wp_deref]
    refine ⟨fun issuer _ => ?_, fun _ => trivial⟩
    rw [wp_bind]
    refine wp_mono wp_addNumEntries_shows (fun r v hv => ?_) fun _ _ h => h
    obtain ⟨rfl, hcounted⟩ := hv
    cases r with
    | none => exact ⟨hboth, nofun⟩
    | some f =>
      dsimp only
      rw [wp_bind]
      refine wp_mono wp_storeChange_prepared (fun g x hx => ?_) fun _ _ h => h
      obtain ⟨hx, -⟩ := hx.2.2 id ((hcounted f rfl).2 id (hboth.shows hf))
      rw [wp_bind]
      refine wp_mono (wp_storeAdd_line ?_) (fun line y hy => ?_) fun _ _ h => h
      · rfl
      · refine ⟨(hboth.trans hx).trans hy.1, fun line' hline' => ?_⟩
        rw [← Option.some.inj hline']
        exact hy.2

/-! ## The credits -/

/-- The balance of an account is written, and no other account is. -/
theorem wp_addNative_writes {f : AccountFrame} {id : AccountID} {amount : ℤ} (hid : f.getID = id)
    (hnonneg : 0 ≤ f.getBalance + amount) (hlt : f.getBalance + amount < 2 ^ 64) :
    wp (PathPaymentOpFrame.addNative d f amount)
      (fun _ t => (∀ id' ≠ id, t.db.accounts[id']? = s.db.accounts[id']?) ∧
        (∃ row, t.db.accounts[id]? = some row ∧ row.entry.balance = f.getBalance + amount) ∧
        int64 (f.getBalance + amount) = f.getBalance + amount)
      (fun _ _ => True) s := by
  unfold PathPaymentOpFrame.addNative
  refine wp_mono AccountFrame.wp_storeChange_row (fun g t ht => ?_) fun _ _ _ => trivial
  obtain ⟨hwrote, -⟩ := ht
  obtain ⟨row, lastmodified, -, hput, hother⟩ := hwrote.row
  subst hid
  -- a sum that wraps around is negative, and is not stored
  have hvalid := hwrote.valid
  simp only [AccountFrame.isValid, Bool.decide_and, Bool.and_eq_true, decide_eq_true_eq] at hvalid
  have hsum := int64_eq_of_nonneg hnonneg hlt hvalid.2.1
  exact ⟨hother, ⟨_, hput, hsum⟩, hsum⟩

/-- An amount that a line takes is added, in 64 bits; only the issuer's line can wrap around. -/
theorem of_addBalance {f g : TrustFrame} {amount : ℤ} (h : f.addBalance amount = some g)
    (hbalance : InRange f.mTrustLine.balance) (hnonneg : 0 ≤ amount) (hmax : amount ≤ INT64_MAX) :
    g.mTrustLine = { f.mTrustLine with balance := int64 (f.mTrustLine.balance + amount) } ∧
      (f.mTrustLine.accountID ≠ getIssuer f.mTrustLine.asset →
        int64 (f.mTrustLine.balance + amount) = f.mTrustLine.balance + amount) := by
  by_cases hzero : amount = 0
  · rw [TrustFrame.addBalance, if_pos hzero] at h
    obtain rfl := Option.some.inj h
    rw [hzero, add_zero, int64_of_inRange hbalance]
    exact ⟨rfl, fun _ => rfl⟩
  · obtain ⟨⟨-, -, howes⟩, rfl⟩ := (TrustFrame.addBalance_eq_some_iff hzero).mp h
    refine ⟨rfl, fun hne => ?_⟩
    have hpos := howes.resolve_right hne
    obtain ⟨hmin, hle⟩ := hbalance
    by_cases hsum : 0 ≤ f.mTrustLine.balance + amount
    · refine int64_eq_of_nonneg hsum ?_ hpos
      unfold INT64_MAX at hmax hle
      omega
    · refine int64_of_inRange ⟨?_, ?_⟩ <;> unfold INT64_MIN INT64_MAX at * <;> omega

theorem key_of_addBalance {f g : TrustFrame} {amount : ℤ} (h : f.addBalance amount = some g) :
    g.mTrustLine.accountID = f.mTrustLine.accountID ∧ g.mTrustLine.asset = f.mTrustLine.asset := by
  unfold TrustFrame.addBalance at h
  dsimp only at h
  split_ifs at h <;> obtain rfl := Option.some.inj h <;> exact ⟨rfl, rfl⟩

/-- The states in which a payment is applied: the cache agrees with the rows, and the rows hold
64-bit numbers, which are not negative for accounts. -/
structure Payable (s : LedgerState) : Prop where
  readable : Readable s
  inRange : ∀ id asset, InRange (holding s.db id asset)
  nonneg : ∀ id, 0 ≤ holding s.db id .native

theorem Prepared.payable (h : Prepared s t) (hs : Payable s) : Payable t :=
  ⟨h.readable hs.readable, fun id asset => by rw [h.holding]; exact hs.inRange id asset,
    fun id => by rw [h.holding]; exact hs.nonneg id⟩

theorem balance_eq_holding {f : AccountFrame} {id : AccountID} (hf : Shows f s id) :
    f.getBalance = holding s.db id .native := by
  obtain ⟨-, row, hrow, hbalance⟩ := hf
  rw [holding, if_pos rfl, hrow]
  exact hbalance.symm

theorem ShowsLine.holding_eq {f : TrustFrame} {id : AccountID} {asset : Asset}
    (hf : ShowsLine f s id asset) (hne : asset ≠ .native) :
    f.mTrustLine.balance = holding s.db id asset := by
  obtain ⟨-, -, row, hrow, hbalance⟩ := hf
  rw [holding, if_neg hne, hrow]
  exact hbalance.symm

namespace PathPaymentOpFrame

/-- What the write that counts adds to an account. Of two writes for one account the later one
counts: natively the one of the commission, and else the one of the destination. -/
def written (app : Application) (op : PathPaymentOp) (received commission : ℤ) (id : AccountID) :
    ℤ :=
  if op.destAsset = .native then if id = app.BANK_COMMISSION_KEY then commission else received
  else if id = op.destination then received else commission

/-- The sum is written, in 64 bits. Only the line of the issuer can wrap around. -/
structure Written (op : PathPaymentOp) (s t : LedgerState) (id : AccountID) (amount : ℤ) :
    Prop where
  sum : holding t.db id op.destAsset = int64 (holding s.db id op.destAsset + amount)
  exact : op.destAsset = .native ∨ id ≠ getIssuer op.destAsset →
    holding t.db id op.destAsset = holding s.db id op.destAsset + amount

theorem wp_payNative {destination commissionDestination : AccountFrame} {op : PathPaymentOp}
    {received commission : ℤ} (h : Payable s) (hnative : op.destAsset = .native)
    (hdest : Shows destination s op.destination)
    (hcommission : Shows commissionDestination s app.BANK_COMMISSION_KEY)
    (hreceived : 0 ≤ received ∧ received ≤ INT64_MAX)
    (hamount : 0 ≤ commission ∧ commission ≤ INT64_MAX) :
    wp (payNative d destination commissionDestination received commission)
      (fun _ t => ∀ id, id = op.destination ∨ id = app.BANK_COMMISSION_KEY →
        Written op s t id (written app op received commission id))
      (fun _ _ => True) s := by
  have hbound : ∀ {f : AccountFrame} {id : AccountID} {amount : ℤ}, Shows f s id →
      0 ≤ amount ∧ amount ≤ INT64_MAX → 0 ≤ f.getBalance + amount ∧
        f.getBalance + amount < 2 ^ 64 := by
    intro f id amount hf hrange
    have hpos := h.nonneg id
    obtain ⟨-, hmax⟩ := h.inRange id .native
    rw [balance_eq_holding hf]
    unfold INT64_MAX at *
    omega
  have hwritten : ∀ {t : LedgerState} {f : AccountFrame} {id : AccountID} {amount : ℤ},
      Shows f s id → (∃ row, t.db.accounts[id]? = some row ∧
        row.entry.balance = f.getBalance + amount) →
      int64 (f.getBalance + amount) = f.getBalance + amount → Written op s t id amount := by
    intro t f id amount hf hrow hsum
    obtain ⟨row, hrow, hbalance⟩ := hrow
    have heq : holding t.db id op.destAsset = holding s.db id op.destAsset + amount := by
      rw [hnative, ← balance_eq_holding hf, ← hbalance, holding, if_pos rfl, hrow]
      rfl
    refine ⟨?_, fun _ => heq⟩
    rw [heq, hnative, ← balance_eq_holding hf, hsum]
  unfold payNative
  rw [wp_bind, wp_failIf]
  refine ⟨fun _ => trivial, fun _ => ?_⟩
  obtain ⟨hnonneg, hlt⟩ := hbound hdest hreceived
  obtain ⟨hnonneg', hlt'⟩ := hbound hcommission hamount
  rw [wp_bind]
  refine wp_mono (wp_addNative_writes hdest.getID hnonneg hlt) (fun _ t ht => ?_) fun _ _ h => h
  simp only [wp_bind, wp_pure]
  refine wp_mono (wp_addNative_writes hcommission.getID hnonneg' hlt') (fun _ u hu => ?_)
    fun _ _ h => h
  obtain ⟨-, hrow, hsum⟩ := ht
  obtain ⟨hother, hrow', hsum'⟩ := hu
  intro id hid
  rw [written, if_pos hnative]
  by_cases hids : id = app.BANK_COMMISSION_KEY
  · rw [if_pos hids, hids]
    exact hwritten hcommission hrow' hsum'
  · rw [if_neg hids]
    obtain rfl := hid.resolve_right hids
    rw [← hother _ hids] at hrow
    exact hwritten hdest hrow hsum

/-- Storing a line is what one account then holds, and no other account holds more or less. -/
theorem wp_storeChange_holding {f : TrustFrame} {id : AccountID} {asset : Asset}
    (hne : asset ≠ .native) (hid : f.mTrustLine.accountID = id)
    (hasset : f.mTrustLine.asset = asset) :
    wp (f.storeChange d)
      (fun _ t => holding t.db id asset = f.mTrustLine.balance ∧
        ∀ id' ≠ id, holding t.db id' asset = holding s.db id' asset)
      (fun _ _ => True) s := by
  refine wp_mono (wp_storeChange_balance hid hasset) (fun g t ht => ?_) fun _ _ h => h
  obtain ⟨-, -, -, row, row', -, ⟨hput, hother⟩, -, -, hbalance⟩ := ht
  constructor
  · rw [holding, if_neg hne, hput]
    exact hbalance
  · intro id' hids
    have hk : LedgerKey.trustLine id' asset ≠ .trustLine id asset := by
      intro hk
      injection hk with hk
      exact hids hk
    rw [holding, holding, if_neg hne, if_neg hne, hother _ hk]

theorem written_of_addBalance {op : PathPaymentOp} {f g : TrustFrame} {id : AccountID} {amount : ℤ}
    (h : Payable s) (hprepared : Prepared s t) (hne : op.destAsset ≠ .native)
    (hf : ShowsLine f t id op.destAsset) (hrange : 0 ≤ amount ∧ amount ≤ INT64_MAX)
    (hadd : f.addBalance amount = some g)
    (hu : holding u.db id op.destAsset = g.mTrustLine.balance) :
    Written op s u id amount := by
  have hheld : f.mTrustLine.balance = holding s.db id op.destAsset := by
    rw [hf.holding_eq hne, hprepared.holding]
  obtain ⟨hg, hexact⟩ := of_addBalance hadd (by rw [hheld]; exact h.inRange id _) hrange.1 hrange.2
  rw [hg, hheld] at hu
  rw [hheld, hf.ofAccount, hf.inAsset] at hexact
  refine ⟨hu, fun hother => ?_⟩
  rw [hu]
  exact hexact (hother.resolve_left hne)

theorem wp_payCredit {destination commissionDestination : AccountFrame} {op : PathPaymentOp}
    {received commission : ℤ} {isCreate : Bool} (h : Payable s) (hne : op.destAsset ≠ .native)
    (hdest : Shows destination s op.destination)
    (hcommission : Shows commissionDestination s app.BANK_COMMISSION_KEY)
    (hreceived : 0 ≤ received ∧ received ≤ INT64_MAX)
    (hamount : 0 ≤ commission ∧ commission ≤ INT64_MAX) :
    wp (payCredit app d isCreate destination commissionDestination op received commission)
      (fun _ t => ∀ id, id = op.destination ∨ id = app.BANK_COMMISSION_KEY →
        Written op s t id (written app op received commission id))
      (fun _ _ => True) s := by
  unfold payCredit
  rw [wp_bind]
  refine wp_mono (wp_loadDestLine_prepared h.readable hdest) (fun destLine t ht => ?_)
    fun _ _ h => h
  obtain ⟨hprepared, hdestLine⟩ := ht
  simp only [wp_bind, wp_failIf]
  refine ⟨fun _ => trivial, fun _ => ⟨fun _ => trivial, fun _ => ?_⟩⟩
  cases hadd : destLine.addBalance received with
  | none => trivial
  | some destLine' =>
    simp only [wp_bind]
    refine wp_mono (wp_getCommissionDest_prepared (hprepared.readable h.readable)
      (hprepared.shows hcommission)) (fun r u hu => ?_) fun _ _ h => h
    obtain ⟨hprepared', hline⟩ := hu
    cases r with
    | none => trivial
    | some commissionLine =>
      have hcommissionLine := hline commissionLine rfl
      dsimp only
      cases hadd' : commissionLine.addBalance commission with
      | none => trivial
      | some commissionLine' =>
        simp only [wp_bind, wp_pure]
        obtain ⟨hid, hasset⟩ := key_of_addBalance hadd
        obtain ⟨hid', hasset'⟩ := key_of_addBalance hadd'
        refine wp_mono (wp_storeChange_holding hne (hid'.trans hcommissionLine.ofAccount)
          (hasset'.trans hcommissionLine.inAsset)) (fun _ v hv => ?_) fun _ _ h => h
        refine wp_mono (wp_storeChange_holding hne (hid.trans hdestLine.ofAccount)
          (hasset.trans hdestLine.inAsset)) (fun _ w hw => ?_) fun _ _ h => h
        intro id hids
        rw [written, if_neg hne]
        by_cases hdestination : id = op.destination
        · rw [if_pos hdestination, hdestination]
          exact written_of_addBalance h hprepared hne hdestLine hreceived hadd hw.1
        · rw [if_neg hdestination]
          obtain rfl := hids.resolve_left hdestination
          exact written_of_addBalance h (hprepared.trans hprepared') hne hcommissionLine hamount
            hadd' ((hw.2 _ hdestination).trans hv.1)

/-- The first half of `doApply`: the destination and the commission account are paid. -/
def creditDestination (app : Application) (d : ℕ) (sourceID : AccountID) (fee : OperationFee)
    (isCreate : Bool) (op : PathPaymentOp) : LedgerM Unit := do
  let curBReceived := int64 (op.destAmount - commission fee)
  modify fun s => { s with
    db.trace := .payment op.destAmount curBReceived (commission fee) :: s.db.trace }
  let commissionDestination ← deref (← AccountFrame.loadAccount d app.BANK_COMMISSION_KEY) .abort
  let destination ← loadDestination app d sourceID op
  if op.destAsset = .native then
    payNative d destination commissionDestination curBReceived (commission fee)
  else payCredit app d isCreate destination commissionDestination op curBReceived (commission fee)

theorem doApply_eq {sourceID : AccountID} {fee : OperationFee} {isCreate : Bool}
    {op : PathPaymentOp} :
    doApply app d sourceID (some fee) isCreate op = (do
      creditDestination app d sourceID fee isCreate op
      let (curB, curBSent, offers) ←
        walkPath app d sourceID (op.sendAsset :: op.path).reverse op.destAsset op.destAmount []
      failIf (op.sendMax < curBSent) (result .PATH_PAYMENT_OVER_SENDMAX)
      debitSource app d sourceID curB curBSent
      return .PATH_PAYMENT_SUCCESS offers
        ⟨op.destination, op.destAsset, int64 (op.destAmount - commission fee)⟩) := by
  simp only [doApply, creditDestination, deref, pure_bind, bind_assoc]
  split_ifs <;> rfl

theorem wp_creditDestination {sourceID : AccountID} {fee : OperationFee} {isCreate : Bool}
    {op : PathPaymentOp} (h : Payable s) (hfee : 0 ≤ commission fee ∧ commission fee ≤ INT64_MAX)
    (hreceived : 0 ≤ int64 (op.destAmount - commission fee)) :
    wp (creditDestination app d sourceID fee isCreate op)
      (fun _ t => ∀ id, id = op.destination ∨ id = app.BANK_COMMISSION_KEY → Written op s t id
        (written app op (int64 (op.destAmount - commission fee)) (commission fee) id))
      (fun _ _ => True) s := by
  have hrange : 0 ≤ int64 (op.destAmount - commission fee) ∧
      int64 (op.destAmount - commission fee) ≤ INT64_MAX := ⟨hreceived, (int64_inRange _).2⟩
  unfold creditDestination
  simp only [wp_bind, wp_modify]
  have hbegun : ∀ trace, Prepared s { s with db.trace := trace } :=
    fun _ => .of_rows (fun hs => hs) rfl rfl
  refine wp_mono (wp_loadAccount_prepared ((hbegun _).readable h.readable) _) (fun r t ht => ?_)
    fun _ _ h => h
  obtain ⟨hloaded, hshows⟩ := ht
  refine (wp_deref _ _).mpr ⟨fun commissionDestination hr => ?_, fun _ => trivial⟩
  have hboth := (hbegun _).trans hloaded
  refine wp_mono (wp_loadDestination_prepared (hboth.readable h.readable))
    (fun destination u hu => ?_) fun _ _ h => h
  have hprepared := hboth.trans hu.1
  have hcommission := hu.1.shows (hshows commissionDestination hr)
  have hkept : ∀ {v : LedgerState} {id : AccountID} {amount : ℤ}, Written op u v id amount →
      Written op s v id amount := fun hv =>
    ⟨by rw [← hprepared.holding]; exact hv.sum, by rw [← hprepared.holding]; exact hv.exact⟩
  by_cases hnative : op.destAsset = .native
  · rw [if_pos hnative]
    refine wp_mono (wp_payNative (hprepared.payable h) hnative hu.2 hcommission hrange hfee)
      (fun _ v hv => ?_) fun _ _ h => h
    exact fun id hid => hkept (hv id hid)
  · rw [if_neg hnative]
    refine wp_mono (wp_payCredit (hprepared.payable h) hnative hu.2 hcommission hrange hfee)
      (fun _ v hv => ?_) fun _ _ h => h
    exact fun id hid => hkept (hv id hid)

/-! ## What is due -/

/-- The destination is due the amount less the commission, and the commission account the rest. -/
def due (app : Application) (fee : OperationFee) (op : PathPaymentOp) (id : AccountID) : ℤ :=
  (if id = op.destination then op.destAmount - commission fee else 0) +
    if id = app.BANK_COMMISSION_KEY then commission fee else 0

/-- Both accounts have got what they are due. -/
def Credited (app : Application) (fee : OperationFee) (op : PathPaymentOp) (s t : LedgerState) :
    Prop :=
  ∀ id, id = op.destination ∨ id = app.BANK_COMMISSION_KEY →
    holding t.db id op.destAsset = holding s.db id op.destAsset + due app fee op id

/-- Nothing wraps around, and no write is hidden by a later one. -/
structure Separate (app : Application) (fee : OperationFee) (op : PathPaymentOp)
    (s : LedgerState) : Prop where
  remainder : INT64_MIN ≤ op.destAmount - commission fee
  visible : op.destination = app.BANK_COMMISSION_KEY → op.destAsset ≠ .native ∧ commission fee = 0
  fits : ∀ id, id = op.destination ∨ id = app.BANK_COMMISSION_KEY → op.destAsset ≠ .native →
    id = getIssuer op.destAsset →
      holding s.db id op.destAsset + due app fee op id ≤ INT64_MAX

/-- What has been checked of a fee and an amount. -/
structure FeeChecked (fee : OperationFee) (amount : ℤ) : Prop where
  inRange : InRange amount
  fee_inRange : FeeInRange fee
  fee_nonneg : 0 ≤ commission fee
  remainder_pos : 0 < int64 (amount - commission fee)

theorem FeeChecked.remainder_eq {fee : OperationFee} {amount : ℤ} (h : FeeChecked fee amount)
    (hmin : INT64_MIN ≤ amount - commission fee) :
    int64 (amount - commission fee) = amount - commission fee := by
  refine int64_of_inRange ⟨hmin, ?_⟩
  obtain ⟨-, hmax⟩ := h.inRange
  have hnonneg := h.fee_nonneg
  omega

theorem Separate.written_eq {fee : OperationFee} {op : PathPaymentOp} {id : AccountID}
    (h : Separate app fee op s) (hchecked : FeeChecked fee op.destAmount)
    (hid : id = op.destination ∨ id = app.BANK_COMMISSION_KEY) :
    written app op (int64 (op.destAmount - commission fee)) (commission fee) id =
      due app fee op id := by
  rw [hchecked.remainder_eq h.remainder, written, due]
  have hvisible := h.visible
  by_cases hsame : op.destination = app.BANK_COMMISSION_KEY
  · obtain ⟨hne, hzero⟩ := hvisible hsame
    rw [hsame] at hid
    obtain rfl := or_self_iff.mp hid
    rw [if_neg hne, hsame, if_pos rfl, if_pos rfl, hzero, ite_self, add_zero]
  · rcases hid with rfl | rfl
    · simp [hsame]
    · have hsame' : app.BANK_COMMISSION_KEY ≠ op.destination := fun h => hsame h.symm
      simp [hsame']

/-- What is written is what is due if it is counted in 64 bits and the writes are separate. -/
theorem credited_iff {fee : OperationFee} {op : PathPaymentOp} (hs : Payable s)
    (hchecked : FeeChecked fee op.destAmount)
    (hwritten : ∀ id, id = op.destination ∨ id = app.BANK_COMMISSION_KEY → Written op s t id
      (written app op (int64 (op.destAmount - commission fee)) (commission fee) id)) :
    Splits fee op.destAmount ∧ Credited app fee op s t ↔ Separate app fee op s := by
  have hnonneg := hchecked.fee_nonneg
  constructor
  · rintro ⟨hsplits, hcredited⟩
    have hremainder :=
      (splits_iff hchecked.inRange hnonneg hchecked.remainder_pos).mp hsplits
    refine ⟨hremainder, fun hsame => ?_, fun id hid _ _ => ?_⟩
    · have hpaid := hcredited op.destination (.inl rfl)
      obtain ⟨hsum, hexact⟩ := hwritten op.destination (.inl rfl)
      rw [hchecked.remainder_eq hremainder, written] at hsum hexact
      rw [due, if_pos rfl, if_pos hsame] at hpaid
      obtain ⟨-, hlt, -⟩ := hsplits
      by_cases hnative : op.destAsset = .native
      · have hheld := hexact (.inl hnative)
        rw [if_pos hnative, if_pos hsame] at hheld
        omega
      · refine ⟨hnative, ?_⟩
        rw [if_neg hnative, if_pos rfl, hpaid] at hsum
        -- a wrapped sum is off by a multiple of 2 ^ 64, and the commission is less than that
        obtain ⟨k, hk⟩ := Int.dvd_bmod_sub_self
          (x := holding s.db op.destination op.destAsset + (op.destAmount - commission fee))
          (m := 2 ^ 64)
        obtain ⟨-, hmax⟩ := hchecked.fee_inRange
        unfold int64 at hsum
        unfold INT64_MAX at hmax
        omega
    · rw [← hcredited id hid, (hwritten id hid).sum]
      exact (int64_inRange _).2
  · intro hseparate
    refine ⟨(splits_iff hchecked.inRange hnonneg hchecked.remainder_pos).mpr
      hseparate.remainder, fun id hid => ?_⟩
    obtain ⟨hsum, hexact⟩ := hwritten id hid
    rw [hseparate.written_eq hchecked hid] at hsum hexact
    by_cases hother : op.destAsset = .native ∨ id ≠ getIssuer op.destAsset
    · exact hexact hother
    · obtain ⟨hnative, hissuer⟩ := not_or.mp hother
      rw [hsum]
      refine int64_of_inRange ⟨?_, hseparate.fits id hid hnative (not_not.mp hissuer)⟩
      have hdue : 0 ≤ due app fee op id := by
        have hpos := hchecked.remainder_pos
        rw [hchecked.remainder_eq hseparate.remainder] at hpos
        unfold due
        split_ifs <;> omega
      have hmin := (hs.inRange id op.destAsset).1
      omega

theorem wp_doCheckValid {fee : OperationFee} {op : PathPaymentOp} (hamount : InRange op.destAmount)
    (hfee : FeeInRange fee) :
    wp (doCheckValid app (some fee) op) (fun _ t => t = s ∧ FeeChecked fee op.destAmount)
      (fun _ _ => True) s := by
  unfold doCheckValid
  simp only [deref, pure_bind]
  rw [wp_bind]
  refine wp_mono (wp_checkFee hamount) (fun _ t ht => ?_) fun _ _ h => h
  obtain ⟨rfl, hnonneg, hpos⟩ := ht
  simp only [wp_bind, wp_failIf]
  exact ⟨fun _ => trivial, fun _ => ⟨fun _ => trivial, fun _ => ⟨fun _ => trivial, fun _ =>
    ⟨trivial, hamount, hfee, hnonneg, hpos⟩⟩⟩⟩

theorem credits_of_applied {sourceID : AccountID} {fee : OperationFee} {isCreate : Bool}
    {op : PathPaymentOp} {r : PathPaymentResult}
    (h : doApply app d sourceID (some fee) isCreate op s = .ok r t) :
    ∃ u, creditDestination app d sourceID fee isCreate op s = .ok () u := by
  rw [doApply_eq] at h
  obtain ⟨⟨⟩, u, hcredit, -⟩ := bind_eq_ok.mp h
  exact ⟨u, hcredit⟩

end PathPaymentOpFrame

/-- The path payment that a payment is. -/
def PaymentOp.toPathPayment (op : PaymentOp) : PathPaymentOp :=
  { sendAsset := op.asset, destAsset := op.asset, destAmount := op.amount, sendMax := op.amount,
    destination := op.destination, path := [] }

namespace PaymentOpFrame

theorem wp_doCheckValid {fee : OperationFee} {op : PaymentOp} (hamount : InRange op.amount)
    (hfee : PathPaymentOpFrame.FeeInRange fee) :
    wp (PaymentOpFrame.doCheckValid app (some fee) op)
      (fun _ _ => PathPaymentOpFrame.FeeChecked fee op.amount) (fun _ _ => True) s := by
  unfold PaymentOpFrame.doCheckValid checkPayment
  simp only [deref, pure_bind]
  rw [wp_bind]
  refine wp_mono (PathPaymentOpFrame.wp_checkFee hamount) (fun _ t ht => ?_) fun _ _ h => h
  obtain ⟨-, hnonneg, hpos⟩ := ht
  simp only [wp_failIf]
  exact ⟨fun _ => trivial, fun _ => ⟨hamount, hfee, hnonneg, hpos⟩⟩

/-- A payment to another account is the path payment. -/
theorem applied_of_doApply {sourceID : AccountID} {fee : OperationFee} {op : PaymentOp}
    {r : PaymentResult} (hamount : InRange op.amount) (hfee : PathPaymentOpFrame.FeeInRange fee)
    (hself : op.destination ≠ sourceID)
    (h : PaymentOpFrame.doApply app d sourceID (some fee) op s = .ok r t) :
    ∃ r', PathPaymentOpFrame.doApply app d sourceID (some fee) false op.toPathPayment s =
      .ok r' t := by
  unfold PaymentOpFrame.doApply at h
  rw [runIf, if_pos hself] at h
  obtain ⟨⟨⟩, u, hpay, hpure⟩ := bind_eq_ok.mp h
  cases hpure
  have hbody := ok_of_tryCatch hpay fun e v v' hv => by
    refine of_wp_ok (Q := fun _ _ => False) (E := fun _ _ => True) ?_ hv
    split
    · split <;> trivial
    · trivial
    · trivial
  obtain ⟨⟨⟩, v, hcheck, hbody⟩ := bind_eq_ok.mp hbody
  obtain ⟨r', w, happly, hpure⟩ := bind_eq_ok.mp hbody
  cases hpure
  have hsame := of_wp_ok (PathPaymentOpFrame.wp_doCheckValid hamount hfee) hcheck
  obtain ⟨rfl, -⟩ := hsame
  exact ⟨r', happly⟩

end PaymentOpFrame

/-- Accounts 1, 2 and 3; account 1 is the source, and commissions go to account 3. -/
def threeAccounts (balance : ℤ) : LedgerState where
  db :=
    { accounts := ((Std.ExtTreeMap.empty.insert 1 ⟨{ accountID := 1, balance }, 1⟩).insert 2
        ⟨{ accountID := 2, balance := 0 }, 1⟩).insert 3 ⟨{ accountID := 3, balance := 0 }, 1⟩ }
  deltas := fun _ => .ofHeader { ledgerSeq := 2 }
  mSourceAccount := some (AccountFrame.ofRow ⟨{ accountID := 1, balance }, 1⟩ false)

def toAccountThree : Application :=
  { BANK_MASTER_KEY := 9, BANK_COMMISSION_KEY := 3, getContentsHash := fun _ => 0,
    hasHint := fun _ _ => false, verifySig := fun _ _ _ => false, computePrice := fun _ => 0,
    strKey := fun _ => 0 }

theorem account_of_threeAccounts {balance : ℤ} {id : AccountID} {row : Row AccountEntry}
    (h : (threeAccounts balance).db.accounts[id]? = some row) :
    row.entry.accountID = id ∧ (row.entry.balance = balance ∨ row.entry.balance = 0) := by
  simp only [threeAccounts, Std.ExtTreeMap.getElem?_insert, Nat.compare_eq_eq] at h
  split_ifs at h with h3 h2 h1
  · rw [← Option.some.inj h]
    exact ⟨h3, .inr rfl⟩
  · rw [← Option.some.inj h]
    exact ⟨h2, .inr rfl⟩
  · rw [← Option.some.inj h]
    exact ⟨h1, .inl rfl⟩
  · simp at h

theorem payable_threeAccounts {balance : ℤ} (hnonneg : 0 ≤ balance) (hmax : balance ≤ INT64_MAX) :
    Payable (threeAccounts balance) := by
  have hlines : ∀ k : LedgerKey, (threeAccounts balance).db.trustlines[k]? = none := by
    intro k
    exact Std.ExtTreeMap.getElem?_empty
  have hheld : ∀ id asset, 0 ≤ holding (threeAccounts balance).db id asset ∧
      holding (threeAccounts balance).db id asset ≤ INT64_MAX := by
    intro id asset
    by_cases hnative : asset = .native
    · rw [holding, if_pos hnative]
      cases hrow : (threeAccounts balance).db.accounts[id]? with
      | none => exact ⟨le_rfl, by decide⟩
      | some row =>
        rw [Option.elim_some]
        obtain ⟨-, heq | heq⟩ := account_of_threeAccounts hrow
        · rw [heq]
          exact ⟨hnonneg, hmax⟩
        · rw [heq]
          exact ⟨le_rfl, by decide⟩
    · rw [holding, if_neg hnative, hlines]
      exact ⟨le_rfl, by decide⟩
  refine ⟨⟨fun _ _ hmem => absurd hmem List.not_mem_nil,
    fun id row hrow => (account_of_threeAccounts hrow).1, fun id asset row hrow => ?_⟩,
    fun id asset => ⟨?_, (hheld id asset).2⟩, fun id => (hheld id .native).1⟩
  · rw [hlines] at hrow
    cases hrow
  · have hpos := (hheld id asset).1
    unfold INT64_MIN
    omega

def commissionOfTwo : OperationFee := .opFEE_CHARGED .native 2

/-- The least amount but one. -/
def lowestPayment : PathPaymentOp :=
  { sendAsset := .native, sendMax := 1, destination := 2, destAsset := .native,
    destAmount := INT64_MIN + 1, path := [] }

end SmartCore.Transactions
