import SmartCore.Ledger.AddBalance
import SmartCore.Ledger.Rows
import SmartCore.Lib.Rounding
import SmartCore.Transactions.OfferExchange

/-!
# Crossing one offer

What `crossOffer` takes of an offer, and what it writes. The amounts come out of three roundings
down, each capped: by what the seller can receive, by what it has and by what is offered, by how
much wheat is wanted and by how many sheep there are. Going from wheat to sheep and back never gains
anything, so the amount of wheat is still below all the caps on wheat, and the last division cannot
overflow.
-/

namespace SmartCore.Transactions.OfferExchange

open SmartCore.Ledger SmartCore.Rounding

variable {s t u : LedgerState} {d : ℕ} {id : AccountID}

/-! ## The seller -/

/-- What an account has of an asset. -/
def holding (db : Database) (id : AccountID) (asset : Asset) : ℤ :=
  if asset = .native then db.accounts[id]?.elim 0 (·.entry.balance)
  else db.trustlines[LedgerKey.trustLine id asset]?.elim 0 (·.entry.balance)

/-- The balance that an account has to keep. -/
def reserve (s : LedgerState) (ownerCount : ℕ) : ℤ :=
  (((2 + ownerCount) * s.mCurrentLedger.baseReserve % 2 ^ 32 : ℕ) : ℤ)

/-- What an account holds and may sell of an asset: natively what is above the reserve, and else
what is on an authorized line. -/
def sellable (s : LedgerState) (id : AccountID) (asset : Asset) : ℤ :=
  if asset = .native then
    s.db.accounts[id]?.elim 0 fun row =>
      max 0 (row.entry.balance - reserve s row.entry.numSubEntries)
  else
    s.db.trustlines[LedgerKey.trustLine id asset]?.elim 0 fun row =>
      if (TrustFrame.ofRow row).isAuthorized then row.entry.balance else 0

/-- What an account may receive of an asset: natively what fits, and else the room on an authorized
line. -/
def receivable (s : LedgerState) (id : AccountID) (asset : Asset) : ℤ :=
  if asset = .native then s.db.accounts[id]?.elim 0 fun row => INT64_MAX - row.entry.balance
  else
    s.db.trustlines[LedgerKey.trustLine id asset]?.elim 0 fun row =>
      if (TrustFrame.ofRow row).isAuthorized then row.entry.limit - row.entry.balance else 0

/-- The wheat that the seller can sell for the sheep that it can receive. -/
def sellerMax (s : LedgerState) (offer : OfferEntry) : ℤ :=
  if offer.buying = .native then INT64_MAX
  else min (receivable s offer.sellerID offer.buying * offer.price.d / offer.price.n) INT64_MAX

/-- The amount of an offer, capped by what the seller can receive and by what it has. -/
def capped (s : LedgerState) (offer : OfferEntry) : ℤ :=
  min (min (sellerMax s offer) (sellable s offer.sellerID offer.selling)) offer.amount

/-- The rows of an account, whose numbers are 64-bit numbers, and the cache in front of them. -/
structure Seller (s : LedgerState) (id : AccountID) : Prop where
  coherent : Coherent s
  account : ∀ row, s.db.accounts[id]? = some row →
    row.entry.accountID = id ∧ 0 ≤ row.entry.balance ∧ row.entry.balance ≤ INT64_MAX
  line : ∀ asset row, s.db.trustlines[LedgerKey.trustLine id asset]? = some row →
    row.entry.accountID = id ∧ row.entry.asset = asset ∧ InRange row.entry.balance ∧
      InRange row.entry.limit

/-- The balance is valid: not negative, or within the limit of the line. -/
def ValidAt (db : Database) (id : AccountID) (asset : Asset) : Prop :=
  if asset = .native then
    ∀ row, db.accounts[id]? = some row → 0 ≤ row.entry.balance ∧ row.entry.balance ≤ INT64_MAX
  else
    ∀ row, db.trustlines[LedgerKey.trustLine id asset]? = some row →
      (TrustFrame.ofRow row).isValid = true

/-- A number that wraps around once is negative. -/
theorem int64_eq_of_nonneg {x : ℤ} (hx : 0 ≤ x) (hlt : x < 2 ^ 64) (h : 0 ≤ int64 x) :
    int64 x = x := by
  by_cases hgt : INT64_MAX < x
  · rw [int64_of_gt hgt (by unfold INT64_MAX; omega)] at h
    omega
  · refine int64_of_inRange ⟨?_, not_lt.mp hgt⟩
    unfold INT64_MIN
    omega

/-! ## Amounts -/

theorem wp_bigDivide {A B C : ℤ} {Q : Option ℤ → LedgerState → Prop}
    {E : Exit → LedgerState → Prop} :
    wp (bigDivide A B C) Q E s ↔
      (0 ≤ A ∧ 0 ≤ B ∧ 0 < C →
        Q (if A * B / C ≤ INT64_MAX then some (A * B / C) else none) s) ∧
      (¬ (0 ≤ A ∧ 0 ≤ B ∧ 0 < C) → E .abort s) := by
  simp only [bigDivide, assertion, wp_bind, wp_require, wp_pure, decide_eq_true_eq,
    decide_eq_false_iff_not]

/-- A quotient that does not fit is taken as the largest number. -/
theorem quotient_getD (q : ℤ) :
    (if q ≤ INT64_MAX then some q else none).getD INT64_MAX = min q INT64_MAX := by
  split_ifs with h
  · exact (min_eq_left h).symm
  · exact (min_eq_right (not_le.mp h).le).symm

theorem wp_sellerMaxWheat {offer : OfferEntry} (h : Seller s offer.sellerID) :
    wp (sellerMaxWheat d offer)
      (fun r t => Loaded d s t ∧ r.1 = sellerMax s offer ∧
        (offer.buying ≠ .native → 0 ≤ receivable s offer.sellerID offer.buying ∧
          r.2 = s.db.trustlines[LedgerKey.trustLine offer.sellerID offer.buying]?.map
            TrustFrame.ofRow ∧ ∀ f, r.2 = some f → f.isValid = true))
      (fun e _ => e ∈ storeFaults) s := by
  simp only [sellerMaxWheat, wp_ite, wp_pure, wp_bind]
  refine ⟨fun hnative => ⟨.refl s, ?_, fun hne => absurd hnative hne⟩, fun hne => ?_⟩
  · rw [sellerMax, if_pos hnative]
  · refine wp_mono (TrustFrame.wp_loadTrustLine_row h.coherent d _ _) (fun r t ht => ?_)
      fun _ _ h => h
    obtain ⟨hr, hvalid, hloaded⟩ := ht
    rw [wp_bigDivide]
    refine ⟨fun hpos => ?_, fun _ => List.mem_cons_self⟩
    have hroom : r.elim 0 (·.getMaxAmountReceive) =
        receivable s offer.sellerID offer.buying := by
      rw [receivable, if_neg hne]
      have hpos := hpos.1
      cases hrow : s.db.trustlines[LedgerKey.trustLine offer.sellerID offer.buying]? with
      | none =>
        rw [hr, hrow]
        rfl
      | some row =>
        obtain ⟨-, -, ⟨hmin, -⟩, -, hmax⟩ := h.line _ row hrow
        have hle := (TrustFrame.isValid_iff.mp (hvalid (TrustFrame.ofRow row) (by rw [hr, hrow]; rfl))).2.2.2.2
        rw [hr, hrow] at hpos ⊢
        simp only [Option.map_some, Option.elim_some, TrustFrame.getMaxAmountReceive] at hpos ⊢
        split_ifs at hpos ⊢ with hauth
        · refine int64_eq_of_nonneg ?_ ?_ hpos
          · exact sub_nonneg.mpr hle
          · show row.entry.limit - row.entry.balance < 2 ^ 64
            unfold INT64_MIN at hmin
            unfold INT64_MAX at hmax
            omega
        · rfl
    rw [hroom] at hpos ⊢
    refine ⟨hloaded, ?_, fun _ => ⟨hpos.1, hr, hvalid⟩⟩
    rw [quotient_getD, sellerMax, if_neg hne]

theorem wp_recordEntry (d : ℕ) (entry : LedgerEntry) {E : Exit → LedgerState → Prop} :
    wp (recordEntry d entry) (fun _ t => Loaded d s t) E s := by
  simp only [recordEntry, wp_updateDelta]
  exact ⟨fun δ hδ => Option.some.inj hδ ▸ .of_recordEntry d entry, by simp⟩

/-- What is above the reserve. -/
theorem wp_getBalanceAboveReserve {f : AccountFrame} (h : InRange f.getBalance)
    (hnonneg : 0 ≤ f.getBalance) {E : Exit → LedgerState → Prop} :
    wp f.getBalanceAboveReserve
      (fun r t => t = s ∧ r = max 0 (f.getBalance - reserve s f.mAccountEntry.numSubEntries)) E
      s := by
  have hreserve : 0 ≤ reserve s f.mAccountEntry.numSubEntries ∧
      reserve s f.mAccountEntry.numSubEntries < 2 ^ 32 := by
    unfold reserve
    omega
  have havail : int64 (f.getBalance - reserve s f.mAccountEntry.numSubEntries) =
      f.getBalance - reserve s f.mAccountEntry.numSubEntries := by
    refine int64_of_inRange ?_
    unfold InRange INT64_MIN INT64_MAX at *
    omega
  simp only [AccountFrame.getBalanceAboveReserve, getMinBalance, wp_bind, wp_get, wp_pure]
  refine ⟨trivial, ?_⟩
  show (if int64 (f.getBalance - reserve s f.mAccountEntry.numSubEntries) < 0 then 0 else
    int64 (f.getBalance - reserve s f.mAccountEntry.numSubEntries)) = _
  rw [havail]
  split_ifs with hlt
  · exact (max_eq_left hlt.le).symm
  · exact (max_eq_right (not_lt.mp hlt)).symm

theorem wp_wheatCanSell {f : AccountFrame} {wheat : Asset} {line : Option TrustFrame}
    {row : Row AccountEntry} {b : Bool} (h : Seller s id)
    (hrow : s.db.accounts[id]? = some row) (hf : f = AccountFrame.ofRow row b)
    (hline : wheat ≠ .native →
      line = s.db.trustlines[LedgerKey.trustLine id wheat]?.map TrustFrame.ofRow) :
    wp (wheatCanSell f wheat line) (fun r t => t = s ∧ r = sellable s id wheat)
      (fun e _ => e ∈ storeFaults) s := by
  simp only [wheatCanSell, wp_ite]
  refine ⟨fun hnative => ?_, fun hne => ?_⟩
  · subst hf
    obtain ⟨-, hnonneg, hmax⟩ := h.account row hrow
    refine wp_mono (wp_getBalanceAboveReserve (f := AccountFrame.ofRow row b)
      ⟨le_trans (by decide) hnonneg, hmax⟩ hnonneg) (fun r t ht => ⟨ht.1, ?_⟩) fun _ _ h => h
    rw [ht.2, sellable, if_pos hnative, hrow]
    rfl
  · rw [hline hne, sellable, if_neg hne]
    cases s.db.trustlines[LedgerKey.trustLine id wheat]? with
    | none => exact ⟨rfl, rfl⟩
    | some row =>
      simp only [Option.map_some, Option.elim_some, wp_ite, TrustFrame.getBalance, assertion,
        wp_bind, wp_require, wp_pure]
      exact ⟨fun hauth => ⟨fun _ => ⟨trivial, (if_pos hauth).symm⟩, fun _ => List.mem_cons_self⟩,
        fun hauth => ⟨trivial, (if_neg hauth).symm⟩⟩

/-- The sheep for an amount of wheat: at most their worth, and at most what fits. -/
def sheepFor (offer : OfferEntry) (wheat maxSheepSend : ℤ) : ℤ :=
  min (min (wheat * offer.price.n / offer.price.d) INT64_MAX) maxSheepSend

theorem sheepFor_le_worth (offer : OfferEntry) (wheat maxSheepSend : ℤ) :
    sheepFor offer wheat maxSheepSend ≤ wheat * offer.price.n / offer.price.d :=
  (min_le_left _ _).trans (min_le_left _ _)

/-- The seller can receive the sheep for the wheat that it can sell. -/
theorem sheepFor_le_receivable {offer : OfferEntry} (hn : 0 < offer.price.n)
    (hd : 0 < offer.price.d) (hbuying : offer.buying ≠ .native) {wheat : ℤ} (maxSheepSend : ℤ)
    (hwheat : wheat ≤ sellerMax s offer) :
    sheepFor offer wheat maxSheepSend ≤ receivable s offer.sellerID offer.buying := by
  rw [sellerMax, if_neg hbuying] at hwheat
  exact (sheepFor_le_worth _ _ _).trans (worth_back_le hd hn (hwheat.trans (min_le_left _ _)))

/-! ## Writing the offer and the balances -/

/-- The frame has the balance of the account. -/
structure Shows (f : AccountFrame) (s : LedgerState) (id : AccountID) : Prop where
  getID : f.getID = id
  balance : ∃ row, s.db.accounts[id]? = some row ∧ row.entry.balance = f.getBalance

/-- `amount` is added to what an account has of an asset. -/
structure Paid (s t : LedgerState) (id : AccountID) (asset : Asset) (amount : ℤ) : Prop where
  kept : Kept s t
  holding : ∀ id' asset', holding t.db id' asset' =
    holding s.db id' asset' + if id' = id ∧ asset' = asset then amount else 0
  lines : ∀ k, k ≠ LedgerKey.trustLine id asset → t.db.trustlines[k]? = s.db.trustlines[k]?
  valid : ∀ id' asset', ValidAt s.db id' asset' → ValidAt t.db id' asset'

theorem Paid.refl (s : LedgerState) (id : AccountID) (asset : Asset) : Paid s s id asset 0 :=
  ⟨.refl s, fun _ _ => by simp, fun _ _ => rfl, fun _ _ h => h⟩

/-- Storing the account, with another balance. -/
theorem wp_storeChange_paid {f : AccountFrame} (amount : ℤ) {row : Row AccountEntry}
    (hid : f.getID = id) (hrow : s.db.accounts[id]? = some row)
    (hbalance : f.getBalance = row.entry.balance + amount) (hmax : f.getBalance ≤ INT64_MAX) :
    wp (f.storeChange d)
      (fun g t => Paid s t id .native amount ∧ t.db.offers = s.db.offers ∧ Shows g t id ∧
        g.getBalance = f.getBalance)
      (fun e _ => e ∈ storeFaults) s := by
  refine wp_mono (wp_and AccountFrame.wp_storeChange_row (AccountFrame.wp_storeChange (d := d)))
    (fun g t ht => ?_) fun _ _ h => h.1.1
  obtain ⟨⟨hwrote, lastModified, rfl⟩, hstored⟩ := ht
  obtain ⟨row₀, lastmodified, hrow₀, hput, hother⟩ := hwrote.row
  rw [hid] at hrow₀ hput hother
  have hnonneg : 0 ≤ f.getBalance := by
    have hvalid := hwrote.valid
    simp only [AccountFrame.isValid, Bool.decide_and, Bool.and_eq_true, decide_eq_true_eq] at hvalid
    exact hvalid.2.1
  refine ⟨⟨hstored.kept, fun id' asset' => ?_, fun k _ => by rw [hwrote.trustlines],
    fun id' asset' hv => ?_⟩, hwrote.offers, ⟨hid, _, hput, rfl⟩, rfl⟩
  · unfold holding
    by_cases hnative : asset' = .native
    · rw [if_pos hnative, if_pos hnative]
      by_cases hids : id' = id
      · subst hids
        rw [if_pos ⟨rfl, hnative⟩, hput, hrow]
        exact hbalance
      · rw [if_neg fun h => hids h.1, hother id' hids, add_zero]
    · rw [if_neg hnative, if_neg hnative, if_neg fun h => hnative h.2, hwrote.trustlines, add_zero]
  · unfold ValidAt at hv ⊢
    by_cases hnative : asset' = .native
    · rw [if_pos hnative] at hv ⊢
      intro row' hrow'
      by_cases hids : id' = id
      · subst hids
        rw [hput] at hrow'
        obtain rfl := Option.some.inj hrow'
        exact ⟨hnonneg, hmax⟩
      · rw [hother id' hids] at hrow'
        exact hv row' hrow'
    · rw [if_neg hnative] at hv ⊢
      rw [hwrote.trustlines]
      exact hv

/-- Storing a trust line, with another balance. -/
theorem wp_storeChange_line {f : TrustFrame} {amount : ℤ} {asset : Asset}
    {row : Row TrustLineEntry} (hne : asset ≠ .native)
    (hrow : s.db.trustlines[LedgerKey.trustLine id asset]? = some row)
    (hid : row.entry.accountID = id) (hasset : row.entry.asset = asset)
    (hf : f.mTrustLine = { row.entry with balance := row.entry.balance + amount }) :
    wp (f.storeChange d)
      (fun _ t => Paid s t id asset amount ∧ t.db.offers = s.db.offers ∧
        t.db.accounts = s.db.accounts)
      (fun e _ => e ∈ storeFaults) s := by
  have hkey : f.getKey = .trustLine id asset := by rw [TrustFrame.getKey, hf, ← hid, ← hasset]
  refine wp_mono (wp_and TrustFrame.wp_storeChange_row (TrustFrame.wp_storeChange (d := d)))
    (fun g t ht => ?_) fun _ _ h => h.1
  obtain ⟨hwrote, hstored⟩ := ht
  obtain ⟨row₀, lastModified, hrow₀, hput, hother⟩ := hwrote.row
  rw [hkey] at hrow₀ hput hother
  obtain rfl := Option.some.inj (hrow.symm.trans hrow₀)
  have hentry : ({ f with lastModified }.toRow row.entry).entry = f.mTrustLine := by
    rw [TrustFrame.toRow, hf]
  refine ⟨⟨hstored.kept, fun id' asset' => ?_, hother, fun id' asset' hv => ?_⟩, hwrote.offers,
    hwrote.accounts⟩
  · unfold holding
    by_cases hnative : asset' = .native
    · rw [if_pos hnative, if_pos hnative, hwrote.accounts,
        if_neg fun h => hne (h.2.symm.trans hnative), add_zero]
    · rw [if_neg hnative, if_neg hnative]
      by_cases hsame : id' = id ∧ asset' = asset
      · obtain ⟨rfl, rfl⟩ := hsame
        rw [if_pos ⟨rfl, rfl⟩, hput, hrow]
        show ({ f with lastModified }.toRow row.entry).entry.balance = _
        rw [hentry, hf]
        rfl
      · rw [if_neg hsame, hother _ fun h => hsame ?_, add_zero]
        injection h with h₁ h₂
        exact ⟨h₁, h₂⟩
  · unfold ValidAt at hv ⊢
    by_cases hnative : asset' = .native
    · rw [if_pos hnative] at hv ⊢
      rw [hwrote.accounts]
      exact hv
    · rw [if_neg hnative] at hv ⊢
      intro row' hrow'
      by_cases hsame : id' = id ∧ asset' = asset
      · obtain ⟨rfl, rfl⟩ := hsame
        rw [hput] at hrow'
        obtain rfl := Option.some.inj hrow'
        have hvalid := TrustFrame.isValid_iff.mp hwrote.valid
        rw [TrustFrame.isValid_iff]
        show ({ f with lastModified }.toRow row.entry).entry.asset ≠ .native ∧ _
        simp only [TrustFrame.ofRow, hentry]
        exact hvalid
      · refine hv row' ?_
        rw [← hother _ fun h => hsame ?_]
        · exact hrow'
        · injection h with h₁ h₂
          exact ⟨h₁, h₂⟩

/-- `amount` can be added to the balance of a line. -/
structure Addable (row : Row TrustLineEntry) (amount : ℤ) : Prop where
  authorized : (TrustFrame.ofRow row).isAuthorized = true
  min : INT64_MIN ≤ row.entry.balance + amount
  limit : row.entry.balance + amount ≤ row.entry.limit
  max : row.entry.limit ≤ INT64_MAX
  owes : 0 ≤ row.entry.balance + amount ∨ row.entry.accountID = getIssuer row.entry.asset

theorem addBalance_eq {row : Row TrustLineEntry} {amount : ℤ} (h : Addable row amount)
    (hne : amount ≠ 0) :
    (TrustFrame.ofRow row).addBalance amount = some { TrustFrame.ofRow row with
      mTrustLine := { row.entry with balance := row.entry.balance + amount }
      added := amount } := by
  have hsum : int64 ((TrustFrame.ofRow row).mTrustLine.balance + amount) =
      row.entry.balance + amount := int64_of_inRange ⟨h.min, h.limit.trans h.max⟩
  rw [TrustFrame.addBalance_eq_some_iff hne, hsum]
  refine ⟨⟨h.authorized, h.limit, h.owes⟩, ?_⟩
  simp [TrustFrame.ofRow]

/-- **Adding to what the seller has.** -/
theorem wp_adjust {f : AccountFrame} {asset : Asset} {line : Option TrustFrame} {amount : ℤ}
    (hshows : Shows f s id)
    (hnative : asset = .native → 0 ≤ f.getBalance + amount ∧ f.getBalance + amount < 2 ^ 64)
    (hline : asset ≠ .native → amount ≠ 0 →
      ∃ row, s.db.trustlines[LedgerKey.trustLine id asset]? = some row ∧
        row.entry.accountID = id ∧ row.entry.asset = asset ∧ line = some (TrustFrame.ofRow row) ∧
          Addable row amount) :
    wp (adjust d f asset line amount)
      (fun r t => ∃ g, r = some g ∧ Paid s t id asset amount ∧ t.db.offers = s.db.offers ∧
        Shows g t id ∧ (asset ≠ .native → g = f))
      (fun e _ => e ∈ storeFaults) s := by
  simp only [adjust, wp_ite, wp_pure, wp_bind]
  refine ⟨fun hzero => ?_, fun hne => ⟨fun hasset => ?_, fun hasset => ?_⟩⟩
  · subst hzero
    exact ⟨f, rfl, .refl s id asset, trivial, hshows, fun _ => rfl⟩
  · subst hasset
    obtain ⟨hid, row, hrow, hbalance⟩ := hshows
    obtain ⟨hnonneg, hlt⟩ := hnative rfl
    have hinrange := int64_inRange (f.getBalance + amount)
    by_cases hwrap : 0 ≤ int64 (f.getBalance + amount)
    · have hsum := int64_eq_of_nonneg hnonneg hlt hwrap
      refine wp_mono (wp_storeChange_paid amount hid hrow ?_ hinrange.2)
        (fun g t ht => ⟨g, rfl, ht.1, ht.2.1, ht.2.2.1, fun hne => absurd rfl hne⟩)
        fun _ _ h => h
      show int64 (f.getBalance + amount) = _
      rw [hsum, hbalance]
    · -- a negative balance is not stored
      refine wp_mono AccountFrame.wp_storeChange_row (fun g t ht => absurd ?_ hwrap)
        fun _ _ h => h.1
      have hvalid := ht.1.valid
      simp only [AccountFrame.isValid, Bool.decide_and, Bool.and_eq_true,
        decide_eq_true_eq] at hvalid
      exact hvalid.2.1
  · obtain ⟨row, hrow, hid, hkey, rfl, hadd⟩ := hline hasset hne
    refine (wp_deref _ _).mpr ⟨fun f' hf' => ?_, by simp⟩
    obtain rfl := Option.some.inj hf'
    rw [addBalance_eq hadd hne, wp_bind]
    refine wp_mono (wp_storeChange_line hasset hrow hid hkey rfl) (fun g t ht => ?_) fun _ _ h => h
    refine ⟨f, rfl, ht.1, ht.2.1, ⟨hshows.getID, ?_⟩, fun _ => rfl⟩
    rw [ht.2.2]
    exact hshows.balance

/-- What is left in the book of an offer. -/
structure Reduced (s t : LedgerState) (offer : OfferEntry) (offerTaken : Bool) (rest : ℤ) :
    Prop where
  taken : offerTaken = true → t.db.offers = s.db.offers.erase offer.offerID
  left : offerTaken = false → ∃ row lastmodified, s.db.offers[offer.offerID]? = some row ∧
    t.db.offers = s.db.offers.insert offer.offerID
      ⟨{ offer with amount := rest, sellerID := row.entry.sellerID }, lastmodified⟩

/-- **The offer is deleted or reduced.** -/
theorem wp_reduceOffer {offer : OfferFrame} {f : AccountFrame} {offerTaken : Bool}
    {numWheatReceived : ℤ} (hshows : Shows f s id) (hmax : f.getBalance ≤ INT64_MAX) :
    wp (reduceOffer d offer f offerTaken numWheatReceived)
      (fun g t => Paid s t id .native 0 ∧ Shows g t id ∧ g.getBalance = f.getBalance ∧
        Reduced s t offer.mOffer offerTaken (int64 (offer.mOffer.amount - numWheatReceived)))
      (fun e _ => e ∈ storeFaults) s := by
  simp only [reduceOffer, wp_ite, wp_bind]
  refine ⟨fun htaken => ?_, fun htaken => ?_⟩
  · refine wp_mono (wp_and OfferFrame.wp_storeDelete_row (OfferFrame.wp_storeDelete (d := d)))
      (fun _ t ht => ?_) fun _ _ h => h.1
    obtain ⟨hdb, hstored⟩ := ht
    simp only [AccountFrame.addNumEntries, wp_ite, wp_throw, wp_bind]
    refine ⟨fun _ => by decide, fun _ => ?_⟩
    simp only [getMinBalance, wp_bind, wp_get, wp_pure, wp_deref]
    refine ⟨fun h => absurd h.1 (by decide), fun _ => ⟨fun f' hf' => ?_, by simp⟩⟩
    obtain rfl := Option.some.inj hf'
    obtain ⟨hid, row, hrow, hbalance⟩ := hshows
    have hrow' : t.db.accounts[id]? = some row := by rw [hdb]; exact hrow
    refine wp_mono (wp_storeChange_paid 0 hid hrow' ?_ hmax) (fun g u hu => ?_)
      fun _ _ h => h
    · rw [add_zero, hbalance]
      rfl
    · obtain ⟨hpaid, hoffers, hshows, hg⟩ := hu
      refine ⟨⟨hstored.kept.trans hpaid.kept, fun id' asset' => ?_, fun k hk => ?_,
        fun id' asset' hv => hpaid.valid id' asset' ?_⟩, hshows, hg, fun _ => ?_, fun h => ?_⟩
      · rw [hpaid.holding, hdb]
        rfl
      · rw [hpaid.lines k hk, hdb]
      · rw [hdb]
        exact hv
      · rw [hoffers, hdb]
      · rw [htaken] at h
        cases h
  · refine wp_mono (wp_and OfferFrame.wp_storeChange_row (OfferFrame.wp_storeChange (d := d)))
      (fun _ t ht => ?_) fun _ _ h => h.1
    obtain ⟨⟨-, row, lastmodified, hrow, hdb⟩, hstored⟩ := ht
    obtain ⟨hid, arow, harow, hbalance⟩ := hshows
    refine ⟨⟨hstored.kept, fun id' asset' => ?_, fun k hk => by rw [hdb], fun id' asset' hv => ?_⟩,
      ⟨hid, arow, by rw [hdb]; exact harow, hbalance⟩, rfl, fun h => absurd h htaken, fun _ => ?_⟩
    · rw [hdb, ite_self, add_zero]
      rfl
    · rw [hdb]
      exact hv
    · exact ⟨row, lastmodified, hrow, by rw [hdb]⟩

/-! ## Crossing -/

/-- An offer as it is in the book: its price and its amount are positive, and it does not sell an
asset for itself. -/
structure Offered (offer : OfferEntry) : Prop where
  n : 0 < offer.price.n
  d : 0 < offer.price.d
  amount : 0 < offer.amount
  max : offer.amount ≤ INT64_MAX
  assets : offer.selling ≠ offer.buying

/-- What crossing an offer comes to, if it can be crossed. -/
structure Crosses (s t : LedgerState) (offer : OfferEntry) (maxWheatReceived maxSheepSend : ℤ)
    (x : Crossed) : Prop where
  wheat : 0 ≤ x.numWheatReceived ∧ x.numWheatReceived ≤ maxWheatReceived ∧
    x.numWheatReceived ≤ offer.amount ∧
      x.numWheatReceived ≤ sellable s offer.sellerID offer.selling
  sheep : 0 ≤ x.numSheepSend ∧ x.numSheepSend ≤ maxSheepSend ∧
    x.numSheepSend ≤ receivable s offer.sellerID offer.buying
  price : x.numWheatReceived * offer.price.n ≤ x.numSheepSend * offer.price.d
  taken : x.result = .eOfferTaken ↔
    capped s offer ≤ x.numWheatReceived ∨ x.numWheatReceived = 0 ∧ x.numSheepSend = 0
  deleted : x.result = .eOfferTaken → t.db.offers = s.db.offers.erase offer.offerID
  left : x.result = .eOfferPartial → 0 < capped s offer - x.numWheatReceived ∧
    ∃ row lastmodified, s.db.offers[offer.offerID]? = some row ∧
      t.db.offers = s.db.offers.insert offer.offerID ⟨{ offer with
        amount := capped s offer - x.numWheatReceived, sellerID := row.entry.sellerID },
          lastmodified⟩
  holding : ∀ id asset, holding t.db id asset = holding s.db id asset +
    (if id = offer.sellerID ∧ asset = offer.buying then x.numSheepSend else 0) -
      if id = offer.sellerID ∧ asset = offer.selling then x.numWheatReceived else 0
  valid : ValidAt t.db offer.sellerID offer.selling ∧ ValidAt t.db offer.sellerID offer.buying
  kept : Kept s t
  trail : x.trail = [⟨offer.sellerID, offer.offerID, offer.selling, x.numWheatReceived,
    offer.buying, x.numSheepSend⟩]

theorem sellable_congr (hdb : t.db = s.db) (hledger : t.mCurrentLedger = s.mCurrentLedger)
    (id : AccountID) (asset : Asset) : sellable t id asset = sellable s id asset := by
  simp only [sellable, reserve, hdb, hledger]

theorem sellerMax_congr (hdb : t.db = s.db) (offer : OfferEntry) :
    sellerMax t offer = sellerMax s offer := by
  simp only [sellerMax, receivable, hdb]

theorem Seller.loaded (h : Seller s id) (hloaded : Loaded d s t) : Seller t id := by
  refine ⟨h.coherent.loaded hloaded, ?_, ?_⟩
  · rw [hloaded.db]
    exact h.account
  · rw [hloaded.db]
    exact h.line

def loadWheatLine (d : ℕ) (id : AccountID) (wheat : Asset) : LedgerM (Option TrustFrame) :=
  if wheat = .native then pure none else TrustFrame.loadTrustLine d id wheat

theorem wp_loadWheatLine (h : Coherent s) (id : AccountID) (wheat : Asset) :
    wp (loadWheatLine d id wheat)
      (fun r t => Loaded d s t ∧ (wheat ≠ .native →
        r = s.db.trustlines[LedgerKey.trustLine id wheat]?.map TrustFrame.ofRow ∧
          ∀ f, r = some f → f.isValid = true))
      (fun e _ => e ∈ storeFaults) s := by
  rw [loadWheatLine, wp_ite]
  refine ⟨fun hnative => ⟨.refl s, fun hne => absurd hnative hne⟩, fun _ => ?_⟩
  exact wp_mono (TrustFrame.wp_loadTrustLine_row h d id wheat)
    (fun _ _ ht => ⟨ht.2.2, fun _ => ⟨ht.1, ht.2.1⟩⟩) fun _ _ h => h

/-- The part of `crossOffer` that writes, once the amounts are known. -/
def settle (d : ℕ) (offer : OfferFrame) (accountB : AccountFrame)
    (sheepLineAccountB wheatLineAccountB : Option TrustFrame) (offerTaken : Bool)
    (numWheatReceived numSheepSend : ℤ) : LedgerM Crossed := do
  let accountB ← reduceOffer d offer accountB offerTaken numWheatReceived
  match ← adjust d accountB offer.mOffer.buying sheepLineAccountB numSheepSend with
  | none => return { result := .eOfferCantConvert }
  | some accountB =>
    match ← adjust d accountB offer.mOffer.selling wheatLineAccountB (-numWheatReceived) with
    | none => return { result := .eOfferCantConvert }
    | some accountB =>
      return { result := if offerTaken then .eOfferTaken else .eOfferPartial
               numWheatReceived, numSheepSend
               trail := [⟨accountB.getID, offer.mOffer.offerID, offer.mOffer.selling,
                 numWheatReceived, offer.mOffer.buying, numSheepSend⟩] }

/-- The seller can give the wheat and receive the sheep. -/
structure Funded (s : LedgerState) (offer : OfferEntry) (f : AccountFrame)
    (sheepLine wheatLine : Option TrustFrame) (w sh : ℤ) : Prop where
  shows : Shows f s offer.sellerID
  max : f.getBalance ≤ INT64_MAX
  wheat : 0 ≤ w ∧ w ≤ INT64_MAX
  sheep : 0 ≤ sh ∧ sh ≤ INT64_MAX
  native : (offer.selling = .native → w ≤ f.getBalance) ∧ 0 ≤ f.getBalance
  sheepLine : offer.buying ≠ .native → sh ≠ 0 →
    ∃ row, s.db.trustlines[LedgerKey.trustLine offer.sellerID offer.buying]? = some row ∧
      row.entry.accountID = offer.sellerID ∧ row.entry.asset = offer.buying ∧
        sheepLine = some (TrustFrame.ofRow row) ∧ Addable row sh
  wheatLine : offer.selling ≠ .native → w ≠ 0 →
    ∃ row, s.db.trustlines[LedgerKey.trustLine offer.sellerID offer.selling]? = some row ∧
      row.entry.accountID = offer.sellerID ∧ row.entry.asset = offer.selling ∧
        wheatLine = some (TrustFrame.ofRow row) ∧ Addable row (-w)

/-- What is written of a crossing. -/
structure Settles (s t : LedgerState) (offer : OfferEntry) (offerTaken : Bool) (w sh : ℤ) :
    Prop where
  reduced : Reduced s t offer offerTaken (int64 (offer.amount - w))
  holding : ∀ id asset, holding t.db id asset = holding s.db id asset +
    (if id = offer.sellerID ∧ asset = offer.buying then sh else 0) -
      if id = offer.sellerID ∧ asset = offer.selling then w else 0
  valid : ∀ id asset, ValidAt s.db id asset → ValidAt t.db id asset
  kept : Kept s t

/-- **Settling always succeeds**, if it can be stored. -/
theorem wp_settle {offer : OfferFrame} {f : AccountFrame} {sheepLine wheatLine : Option TrustFrame}
    {offerTaken : Bool} {w sh : ℤ} (hne : offer.mOffer.selling ≠ offer.mOffer.buying)
    (h : Funded s offer.mOffer f sheepLine wheatLine w sh) :
    wp (settle d offer f sheepLine wheatLine offerTaken w sh)
      (fun x t => Settles s t offer.mOffer offerTaken w sh ∧
        x = { result := if offerTaken then .eOfferTaken else .eOfferPartial
              numWheatReceived := w, numSheepSend := sh
              trail := [⟨offer.mOffer.sellerID, offer.mOffer.offerID, offer.mOffer.selling, w,
                offer.mOffer.buying, sh⟩] })
      (fun e _ => e ∈ storeFaults) s := by
  rw [settle, wp_bind]
  refine wp_mono (wp_reduceOffer h.shows h.max) (fun g t ht => ?_) fun _ _ h => h
  obtain ⟨hpaid₀, hshows, hbalance, hreduced⟩ := ht
  rw [wp_bind]
  have hsheepLine : ∀ asset ≠ .native,
      t.db.trustlines[LedgerKey.trustLine offer.mOffer.sellerID asset]? =
        s.db.trustlines[LedgerKey.trustLine offer.mOffer.sellerID asset]? := by
    intro asset hasset
    refine hpaid₀.lines _ fun hkey => hasset ?_
    injection hkey
  refine wp_mono (wp_adjust hshows (fun _ => ?_) fun hb hz => ?_)
    (fun r u hu => ?_) fun _ _ h => h
  · have := h.native.2
    have := h.sheep
    have := h.max
    unfold INT64_MAX at *
    omega
  · rw [hsheepLine _ hb]
    exact h.sheepLine hb hz
  obtain ⟨g₁, rfl, hpaid₁, hoffers₁, hshows₁, hsame⟩ := hu
  rw [wp_bind]
  refine wp_mono (wp_adjust hshows₁ (fun hnative => ?_)
    fun hs hz => ?_) (fun r v hv => ?_) fun _ _ h => h
  · -- the sheep are not native, so that the balance is still the one that was loaded
    have hg₁ : g₁ = g := hsame fun hb => hne (hnative.trans hb.symm)
    have := h.native.1 hnative
    have := h.wheat.1
    have := h.max
    rw [hg₁, hbalance]
    unfold INT64_MAX at *
    omega
  · rw [hpaid₁.lines _ (fun hkey => hne (by injection hkey)), hsheepLine _ hs]
    exact h.wheatLine hs fun hw => hz (by rw [hw]; rfl)
  obtain ⟨g₂, rfl, hpaid₂, hoffers₂, hshows₂, -⟩ := hv
  refine ⟨⟨⟨fun htaken => ?_, fun htaken => ?_⟩, fun id asset => ?_, fun id asset hvalid => ?_, ?_⟩,
    ?_⟩
  · rw [hoffers₂, hoffers₁, hreduced.taken htaken]
  · obtain ⟨row, lastmodified, hrow, hoffers⟩ := hreduced.left htaken
    exact ⟨row, lastmodified, hrow, by rw [hoffers₂, hoffers₁, hoffers]⟩
  · rw [hpaid₂.holding, hpaid₁.holding, hpaid₀.holding, ite_self, add_zero, sub_eq_add_neg]
    congr 1
    split_ifs
    · rfl
    · rfl
  · exact hpaid₂.valid _ _ (hpaid₁.valid _ _ (hpaid₀.valid _ _ hvalid))
  · exact hpaid₀.kept.trans (hpaid₁.kept.trans hpaid₂.kept)
  · rw [hshows₂.getID]

/-- What was loaded of the seller. -/
structure Loads (s : LedgerState) (offer : OfferEntry) (f : AccountFrame)
    (sheepLine wheatLine : Option TrustFrame) : Prop where
  account : ∃ row b, s.db.accounts[offer.sellerID]? = some row ∧ f = AccountFrame.ofRow row b
  sheep : offer.buying ≠ .native → 0 ≤ receivable s offer.sellerID offer.buying ∧
    sheepLine = s.db.trustlines[LedgerKey.trustLine offer.sellerID offer.buying]?.map
      TrustFrame.ofRow ∧ ∀ f, sheepLine = some f → f.isValid = true
  wheat : offer.selling ≠ .native →
    wheatLine = s.db.trustlines[LedgerKey.trustLine offer.sellerID offer.selling]?.map
      TrustFrame.ofRow ∧ ∀ f, wheatLine = some f → f.isValid = true

/-- The amounts are within what the seller has and can receive. -/
structure Affordable (s : LedgerState) (offer : OfferEntry) (w sh : ℤ) : Prop where
  wheat : 0 ≤ w ∧ w ≤ capped s offer
  sheep : 0 ≤ sh ∧ sh ≤ INT64_MAX
  room : offer.buying ≠ .native → sh ≤ receivable s offer.sellerID offer.buying

theorem sellable_le_balance {row : Row AccountEntry} (hnonneg : 0 ≤ row.entry.balance)
    (hrow : s.db.accounts[id]? = some row) : sellable s id .native ≤ row.entry.balance := by
  rw [sellable, if_pos rfl, hrow]
  refine max_le hnonneg ?_
  have hreserve : 0 ≤ reserve s row.entry.numSubEntries := Int.natCast_nonneg _
  omega

theorem Loads.funded {offer : OfferEntry} {f : AccountFrame}
    {sheepLine wheatLine : Option TrustFrame} {w sh : ℤ} (h : Loads s offer f sheepLine wheatLine) (hseller : Seller s offer.sellerID)
    (hoffer : Offered offer) (hafford : Affordable s offer w sh) (amount : ℤ) :
    Funded s { offer with amount } f sheepLine wheatLine w sh := by
  obtain ⟨row, b, hrow, rfl⟩ := h.account
  obtain ⟨hid, hnonneg, hmax⟩ := hseller.account row hrow
  have hsellable : w ≤ sellable s offer.sellerID offer.selling :=
    hafford.wheat.2.trans ((min_le_left _ _).trans (min_le_right _ _))
  have hamount : w ≤ INT64_MAX := hafford.wheat.2.trans ((min_le_right _ _).trans hoffer.max)
  refine ⟨⟨hid, row, hrow, rfl⟩, hmax, ⟨hafford.wheat.1, hamount⟩, hafford.sheep,
    ⟨fun hnative => ?_, hnonneg⟩, fun hne hsh => ?_, fun hne hw => ?_⟩
  · rw [hnative] at hsellable
    exact hsellable.trans (sellable_le_balance hnonneg hrow)
  · obtain ⟨-, hline, hvalid⟩ := h.sheep hne
    have hroom := hafford.room hne
    have hpos := hafford.sheep.1
    rw [receivable, if_neg hne] at hroom
    cases hlrow : s.db.trustlines[LedgerKey.trustLine offer.sellerID offer.buying]? with
    | none =>
      rw [hlrow] at hroom
      exact absurd (le_antisymm hroom hpos) hsh
    | some lrow =>
      rw [hlrow] at hroom hline
      obtain ⟨hlid, hasset, ⟨hmin, -⟩, -, hlimit⟩ := hseller.line _ lrow hlrow
      have hv := TrustFrame.isValid_iff.mp (hvalid _ hline)
      simp only [Option.elim_some] at hroom
      split_ifs at hroom with hauth
      · refine ⟨lrow, rfl, hlid, hasset, hline, hauth, by omega, by omega, hlimit, ?_⟩
        rcases hv.2.2.1 with hb | hissuer
        · exact Or.inl (add_nonneg hb hpos)
        · exact Or.inr hissuer
      · exact absurd (le_antisymm hroom hpos) hsh
  · obtain ⟨hline, hvalid⟩ := h.wheat hne
    have hpos := hafford.wheat.1
    rw [sellable, if_neg hne] at hsellable
    cases hlrow : s.db.trustlines[LedgerKey.trustLine offer.sellerID offer.selling]? with
    | none =>
      rw [hlrow] at hsellable
      exact absurd (le_antisymm hsellable hpos) hw
    | some lrow =>
      rw [hlrow] at hsellable hline
      obtain ⟨hlid, hasset, -, -, hlimit⟩ := hseller.line _ lrow hlrow
      have hle : lrow.entry.balance ≤ lrow.entry.limit :=
        (TrustFrame.isValid_iff.mp (hvalid _ hline)).2.2.2.2
      simp only [Option.elim_some] at hsellable
      split_ifs at hsellable with hauth
      · have hmin : INT64_MIN ≤ 0 := by decide
        exact ⟨lrow, rfl, hlid, hasset, hline, hauth, by omega, by omega, hlimit,
          Or.inl (by omega)⟩
      · exact absurd (le_antisymm hsellable hpos) hw

theorem Loads.valid {offer : OfferEntry} {f : AccountFrame}
    {sheepLine wheatLine : Option TrustFrame} (h : Loads s offer f sheepLine wheatLine) (hseller : Seller s offer.sellerID) :
    ValidAt s.db offer.sellerID offer.selling ∧ ValidAt s.db offer.sellerID offer.buying := by
  have hof : ∀ {asset : Asset} {line : Option TrustFrame}, (asset ≠ .native →
      line = s.db.trustlines[LedgerKey.trustLine offer.sellerID asset]?.map TrustFrame.ofRow ∧
        ∀ f, line = some f → f.isValid = true) → ValidAt s.db offer.sellerID asset := by
    intro asset line hline
    unfold ValidAt
    split_ifs with hnative
    · exact fun row hrow => (hseller.account row hrow).2
    · intro row hrow
      obtain ⟨heq, hvalid⟩ := hline hnative
      exact hvalid _ (by rw [heq, hrow]; rfl)
  exact ⟨hof h.wheat, hof fun hne => (h.sheep hne).2⟩

/-- What is settled of an offer that is capped. -/
theorem Settles.crosses {offer : OfferEntry} {f : AccountFrame}
    {sheepLine wheatLine : Option TrustFrame} {maxWheatReceived maxSheepSend w sh : ℤ}
    {offerTaken : Bool} {x : Crossed}
    (hsettles : Settles s t { offer with amount := capped s offer } offerTaken w sh)
    (hloads : Loads s offer f sheepLine wheatLine) (hseller : Seller s offer.sellerID)
    (hoffer : Offered offer) (hafford : Affordable s offer w sh)
    (hx : x = { result := if offerTaken then .eOfferTaken else .eOfferPartial
                numWheatReceived := w, numSheepSend := sh
                trail := [⟨offer.sellerID, offer.offerID, offer.selling, w, offer.buying, sh⟩] })
    (hwheat : w ≤ maxWheatReceived) (hsheep : sh ≤ maxSheepSend)
    (hprice : w * offer.price.n ≤ sh * offer.price.d)
    (htaken : offerTaken = true ↔ capped s offer ≤ w ∨ w = 0 ∧ sh = 0) :
    Crosses s t offer maxWheatReceived maxSheepSend x := by
  subst hx
  have hcapped : capped s offer ≤ offer.amount := min_le_right _ _
  have hvalid := hloads.valid hseller
  have hrest : int64 (capped s offer - w) = capped s offer - w := by
    obtain ⟨hnonneg, hle⟩ := hafford.wheat
    have hmin : INT64_MIN ≤ 0 := by decide
    have hmax := hoffer.max
    exact int64_of_inRange ⟨by omega, by omega⟩
  have hvalid' := And.imp (hsettles.valid _ _) (hsettles.valid _ _) hvalid
  refine
    { wheat := ⟨hafford.wheat.1, hwheat, hafford.wheat.2.trans hcapped,
        hafford.wheat.2.trans ((min_le_left _ _).trans (min_le_right _ _))⟩
      sheep := ⟨hafford.sheep.1, hsheep, ?_⟩
      price := hprice
      taken := ?_
      deleted := fun h => hsettles.reduced.taken ?_
      left := fun h => ?_
      holding := hsettles.holding
      valid := hvalid'
      kept := hsettles.kept
      trail := rfl }
  · by_cases hnative : offer.buying = .native
    · -- the balance still fits after the sheep are added to it
      obtain ⟨row, b, hrow, -⟩ := hloads.account
      have hholding := hsettles.holding offer.sellerID .native
      have hroom := hvalid'.2
      rw [ValidAt, if_pos hnative] at hroom
      rw [receivable, if_pos hnative, hrow]
      show sh ≤ INT64_MAX - row.entry.balance
      rw [if_pos ⟨rfl, hnative.symm⟩, if_neg fun h => hoffer.assets (h.2.symm.trans hnative.symm),
        OfferExchange.holding, if_pos rfl, OfferExchange.holding, if_pos rfl, hrow] at hholding
      simp only [Option.elim_some] at hholding
      cases hrow' : t.db.accounts[offer.sellerID]? with
      | none =>
        have := (hseller.account row hrow).2
        rw [hrow'] at hholding
        simp only [Option.elim_none] at hholding
        omega
      | some row' =>
        have := (hroom row' hrow').2
        rw [hrow'] at hholding
        simp only [Option.elim_some] at hholding
        omega
    · exact hafford.room hnative
  · rw [← htaken]
    cases offerTaken <;> simp
  · cases offerTaken
    · cases h
    · rfl
  · cases offerTaken
    · have hnot : ¬ capped s offer ≤ w := fun hle => by
        have := htaken.mpr (Or.inl hle)
        cases this
      obtain ⟨row, lastmodified, hrow, hoffers⟩ := hsettles.reduced.left rfl
      rw [hrest] at hoffers
      exact ⟨by simp only; omega, row, lastmodified, hrow, hoffers⟩
    · cases h

/-- The part of `crossOffer` that finds the amounts, from the capped amount of the offer. -/
def trade (d : ℕ) (f : OfferFrame) (accountB : AccountFrame)
    (sheepLineAccountB wheatLineAccountB : Option TrustFrame)
    (amount maxWheatReceived maxSheepSend : ℤ) : LedgerM Crossed := do
  let offer := f.mOffer
  let reduced := decide (maxWheatReceived < amount)
  let numWheatReceived := min amount maxWheatReceived
  let numSheepSend := (← bigDivide numWheatReceived offer.price.n offer.price.d).getD INT64_MAX
  let reducedOffer := reduced || decide (maxSheepSend < numSheepSend)
  let numSheepSend := min numSheepSend maxSheepSend
  let numWheatReceived ← bigDivideOrThrow numSheepSend offer.price.d offer.price.n
  let nothing := decide (numWheatReceived = 0 ∨ numSheepSend = 0)
  if nothing && reducedOffer then return { result := .eOfferCantConvert }
  else
    let numWheatReceived := if nothing then 0 else numWheatReceived
    let numSheepSend := if nothing then 0 else numSheepSend
    settle d { f with mOffer := { offer with amount } } accountB sheepLineAccountB
      wheatLineAccountB (nothing || decide (amount ≤ numWheatReceived)) numWheatReceived
      numSheepSend

/-- The exception of an offer without a seller. -/
def noSeller : Exit := .exception "invalid database state: offer must have matching account"

theorem crossOffer_eq (d : ℕ) (f : OfferFrame) (maxWheatReceived maxSheepSend : ℤ) :
    crossOffer d f maxWheatReceived maxSheepSend = (do
      recordEntry d f.mEntry
      match ← AccountFrame.loadAccount d f.mOffer.sellerID with
      | none => throw noSeller
      | some accountB =>
        let wheatLine ← loadWheatLine d f.mOffer.sellerID f.mOffer.selling
        let r ← sellerMaxWheat d f.mOffer
        let canSell ← wheatCanSell accountB f.mOffer.selling wheatLine
        trade d f accountB r.2 wheatLine (min (min r.1 canSell) f.mOffer.amount)
          maxWheatReceived maxSheepSend) := by
  refine bind_congr fun _ => bind_congr fun account => ?_
  cases account with
  | none => rfl
  | some accountB =>
    by_cases hnative : f.mOffer.selling = .native
    · simp only [loadWheatLine, if_pos hnative]
      rfl
    · simp only [loadWheatLine, if_neg hnative]
      rfl

/-- **The amounts.** -/
theorem wp_trade {f : OfferFrame} {accountB : AccountFrame}
    {sheepLine wheatLine : Option TrustFrame} {maxWheatReceived maxSheepSend : ℤ}
    (hloads : Loads s f.mOffer accountB sheepLine wheatLine)
    (hseller : Seller s f.mOffer.sellerID) (hoffer : Offered f.mOffer) :
    wp (trade d f accountB sheepLine wheatLine (capped s f.mOffer) maxWheatReceived maxSheepSend)
      (fun x t => x.result = .eOfferCantConvert ∧ t = s ∨
        x.result ≠ .eOfferCantConvert ∧ Crosses s t f.mOffer maxWheatReceived maxSheepSend x)
      (fun e _ => e ∈ storeFaults) s := by
  have hn := hoffer.n
  have hd := hoffer.d
  have hcapped : capped s f.mOffer ≤ INT64_MAX := (min_le_right _ _).trans hoffer.max
  rw [trade, wp_bind, wp_bigDivide]
  refine ⟨fun hwheat => ?_, fun _ => List.mem_cons_self⟩
  rw [quotient_getD]
  set wheat := min (capped s f.mOffer) maxWheatReceived with hwheatDef
  change wp (bigDivideOrThrow (sheepFor f.mOffer wheat maxSheepSend) f.mOffer.price.d
    f.mOffer.price.n >>= _) _ _ _
  set sheep := sheepFor f.mOffer wheat maxSheepSend with hsheepDef
  have hback : sheep * f.mOffer.price.d / f.mOffer.price.n ≤ wheat :=
    worth_back_le hn hd (sheepFor_le_worth _ _ _)
  -- this cannot overflow at this point
  have hfits : sheep * f.mOffer.price.d / f.mOffer.price.n ≤ INT64_MAX :=
    hback.trans ((min_le_left _ _).trans hcapped)
  simp only [bigDivideOrThrow, wp_bind, wp_bigDivide]
  refine ⟨fun hsheep => ?_, fun _ => List.mem_cons_self⟩
  rw [if_pos hfits]
  set w := sheep * f.mOffer.price.d / f.mOffer.price.n with hw
  have hw0 : 0 ≤ w := worth_nonneg hsheep.1 hd.le hn
  have hmaxSheep : sheep ≤ INT64_MAX := (min_le_left _ _).trans (min_le_right _ _)
  have hmaxWheat : wheat ≤ maxWheatReceived := min_le_right _ _
  have hmaxSend : sheep ≤ maxSheepSend := min_le_right _ _
  have hprice : w * f.mOffer.price.n ≤ sheep * f.mOffer.price.d := worth_mul_le _ _ hn
  have hafford : Affordable s f.mOffer w sheep :=
    ⟨⟨hw0, hback.trans (min_le_left _ _)⟩, ⟨hsheep.1, hmaxSheep⟩, fun hne =>
      sheepFor_le_receivable hn hd hne _
        ((min_le_left _ _).trans ((min_le_left _ _).trans (min_le_left _ _)))⟩
  simp only [wp_pure, wp_ite]
  refine ⟨fun _ => Or.inl ⟨trivial, trivial⟩, fun _ => ?_⟩
  have hfold : min (min (wheat * f.mOffer.price.n / f.mOffer.price.d) INT64_MAX) maxSheepSend =
      sheep := rfl
  rw [hfold]
  by_cases hnothing : w = 0 ∨ sheep = 0
  · -- a bogus offer is deleted
    have hzero : Affordable s f.mOffer 0 0 :=
      ⟨⟨le_rfl, hwheat.1.trans (min_le_left _ _)⟩, ⟨le_rfl, by decide⟩,
        fun hne => (hloads.sheep hne).1⟩
    simp only [decide_eq_true hnothing, if_true, Bool.true_or]
    refine wp_mono (wp_settle hoffer.assets (hloads.funded hseller hoffer hzero _))
      (fun x t hx => Or.inr ⟨?_, ?_⟩) fun _ _ h => h
    · rw [hx.2]
      simp
    · exact hx.1.crosses hloads hseller hoffer hzero hx.2 (hwheat.1.trans hmaxWheat)
        (hsheep.1.trans hmaxSend) (by simp) ⟨fun _ => Or.inr ⟨rfl, rfl⟩, fun _ => rfl⟩
  · simp only [decide_eq_false hnothing, Bool.false_or, Bool.false_eq_true, if_false]
    refine wp_mono (wp_settle hoffer.assets (hloads.funded hseller hoffer hafford _))
      (fun x t hx => Or.inr ⟨?_, ?_⟩) fun _ _ h => h
    · rw [hx.2]
      split_ifs <;> simp
    · refine hx.1.crosses hloads hseller hoffer hafford hx.2 (hback.trans hmaxWheat) hmaxSend hprice
        ?_
      rw [decide_eq_true_eq]
      exact ⟨Or.inl, fun h => h.resolve_right fun hboth => hnothing (Or.inl hboth.1)⟩

theorem Crosses.of_loaded {offer : OfferEntry} {maxWheatReceived maxSheepSend : ℤ} {x : Crossed}
    (hloaded : Loaded d s t) (h : Crosses t u offer maxWheatReceived maxSheepSend x) :
    Crosses s u offer maxWheatReceived maxSheepSend x := by
  obtain ⟨hwheat, hsheep, hprice, htaken, hdeleted, hleft, hholding, hvalid, hkept, htrail⟩ := h
  simp only [capped, sellable_congr hloaded.db hloaded.ledger, sellerMax_congr hloaded.db,
    receivable, hloaded.db] at *
  exact ⟨hwheat, hsheep, hprice, htaken, hdeleted, hleft, hholding, hvalid,
    hloaded.kept.trans hkept, htrail⟩

/-- **Crossing one offer.** -/
theorem wp_crossOffer {f : OfferFrame} {maxWheatReceived maxSheepSend : ℤ}
    (h : Seller s f.mOffer.sellerID) (hoffer : Offered f.mOffer) :
    wp (crossOffer d f maxWheatReceived maxSheepSend)
      (fun x t => x.result = .eOfferCantConvert ∧ Loaded d s t ∨
        x.result ≠ .eOfferCantConvert ∧ Crosses s t f.mOffer maxWheatReceived maxSheepSend x)
      (fun e _ => e ∈ storeFaults ∨ e = noSeller) s := by
  have hfault : ∀ (e : Exit) (t : LedgerState), e ∈ storeFaults → e ∈ storeFaults ∨ e = noSeller :=
    fun _ _ he => Or.inl he
  rw [crossOffer_eq, wp_bind]
  refine wp_mono (wp_recordEntry d f.mEntry) (fun _ t₀ ht₀ => ?_) fun _ _ he => he
  rw [wp_bind]
  refine wp_mono (AccountFrame.wp_loadAccount_row (h.loaded ht₀).coherent d f.mOffer.sellerID)
    (fun r t₁ ht₁ => ?_) hfault
  obtain ⟨⟨b, hr⟩, ht₁⟩ := ht₁
  have ht₁ := ht₀.trans ht₁
  rw [ht₀.db] at hr
  cases hrow : s.db.accounts[f.mOffer.sellerID]? with
  | none =>
    rw [hr, hrow]
    exact Or.inr rfl
  | some row =>
    rw [hr, hrow]
    obtain ⟨hid, hnonneg, hmax⟩ := h.account row hrow
    simp only [Option.map_some, wp_bind]
    refine wp_mono (wp_loadWheatLine (h.loaded ht₁).coherent _ _) (fun wheatLine t₂ ht₂ => ?_)
      hfault
    obtain ⟨ht₂, hwheatLine⟩ := ht₂
    have ht₂ := ht₁.trans ht₂
    rw [ht₁.db] at hwheatLine
    refine wp_mono (wp_sellerMaxWheat (h.loaded ht₂)) (fun r t₃ ht₃ => ?_) hfault
    obtain ⟨sellerMax', sheepLine⟩ := r
    obtain ⟨ht₃, hsellerMax, hsheepLine⟩ := ht₃
    have ht₃ := ht₂.trans ht₃
    have hsellerMax : sellerMax' = sellerMax s f.mOffer :=
      hsellerMax.trans (sellerMax_congr ht₂.db _)
    have hrow₃ : t₃.db.accounts[f.mOffer.sellerID]? = some row := by rw [ht₃.db, hrow]
    refine wp_mono (wp_wheatCanSell (h.loaded ht₃) hrow₃ rfl ?_) (fun canSell t₄ ht₄ => ?_) hfault
    · rw [ht₃.db]
      exact fun hne => (hwheatLine hne).1
    obtain ⟨rfl, hcanSell⟩ := ht₄
    have hcapped : min (min sellerMax' canSell) f.mOffer.amount = capped t₄ f.mOffer := by
      rw [capped, hsellerMax, hcanSell, sellerMax_congr ht₃.db]
    have hloads : Loads t₄ f.mOffer (AccountFrame.ofRow row b) sheepLine wheatLine := by
      refine ⟨⟨row, b, hrow₃, rfl⟩, ?_, ?_⟩
      · simp only [receivable, ht₂.db, ht₃.db] at hsheepLine ⊢
        exact hsheepLine
      · rw [ht₃.db]
        exact hwheatLine
    rw [hcapped]
    refine wp_mono (wp_trade hloads (h.loaded ht₃) hoffer) (fun x u hx => ?_) hfault
    rcases hx with ⟨hcant, rfl⟩ | ⟨hne, hcrosses⟩
    · exact Or.inl ⟨hcant, ht₃⟩
    · exact Or.inr ⟨hne, hcrosses.of_loaded ht₃⟩

/-- **Crossing is fair and atomic.** If the offer cannot be converted, nothing is written. Else the
amounts are within all the limits and not below the price of the seller, what is left of the offer
stays in the book, and the balances of the seller change by the amounts. The last division does not
overflow. -/
theorem crossOffer_fair (d : ℕ) (f : OfferFrame) (maxWheatReceived maxSheepSend : ℤ)
    (h : Seller s f.mOffer.sellerID) (hoffer : Offered f.mOffer) :
    wp (crossOffer d f maxWheatReceived maxSheepSend)
      (fun x t => (x.result = .eOfferCantConvert → t.db = s.db) ∧
        (x.result ≠ .eOfferCantConvert →
          Crosses s t f.mOffer maxWheatReceived maxSheepSend x))
      (fun e _ => e ≠ .exception "overflow while performing bigDivide") s := by
  refine wp_mono (wp_crossOffer h hoffer) (fun x t hx => ?_) fun e _ he => ?_
  · rcases hx with ⟨hcant, hloaded⟩ | ⟨hne, hcrosses⟩
    · exact ⟨fun _ => hloaded.db, fun hne => absurd hcant hne⟩
    · exact ⟨fun hcant => absurd hcant hne, fun _ => hcrosses⟩
  · rintro rfl
    revert he
    decide

/-- A credit of account 1. -/
def token : Asset := .alphaNum4 ⟨[84, 79, 75, 0], rfl⟩ 1

/-- Account 5 has 100, can receive 50 of the credit, and offers `amount` at the price `n / d`. -/
def oneSeller (amount n d : ℤ) : LedgerState where
  db :=
    { accounts := Std.ExtTreeMap.empty.insert 5
        ⟨{ accountID := 5, balance := 100, numSubEntries := 2 }, 1⟩
      trustlines := Std.ExtTreeMap.empty.insert (.trustLine 5 token)
        ⟨{ accountID := 5, asset := token, limit := 50, flags := 1 }, 1⟩
      offers := Std.ExtTreeMap.empty.insert 7
        ⟨{ sellerID := 5, offerID := 7, selling := .native, buying := token, amount,
           price := ⟨n, d⟩, flags := 0 }, 1⟩ }
  deltas := fun _ => .ofHeader { ledgerSeq := 2 }

/-- The offer of `oneSeller`. -/
def theOffer (amount n d : ℤ) : OfferFrame :=
  { mOffer := { sellerID := 5, offerID := 7, selling := .native, buying := token, amount,
                price := ⟨n, d⟩, flags := 0 }
    lastModified := 1 }

theorem seller_oneSeller (amount n d : ℤ) : Seller (oneSeller amount n d) 5 := by
  refine ⟨fun _ _ hmem => absurd hmem List.not_mem_nil, fun row hrow => ?_,
    fun asset row hrow => ?_⟩
  · obtain rfl : (⟨{ accountID := 5, balance := 100, numSubEntries := 2 }, 1⟩ : Row _) = row := by
      simpa [oneSeller] using hrow
    decide
  · by_cases hasset : token = asset
    · subst hasset
      obtain rfl : (⟨{ accountID := 5, asset := token, limit := 50, flags := 1 }, 1⟩ : Row _) =
          row := by
        simpa [oneSeller] using hrow
      decide
    · simp [oneSeller, hasset] at hrow

/-- Of an offer of 40, 30 are taken. -/
theorem crossOffer_fair_thirtyOfForty :
    Seller (oneSeller 40 1 2) 5 ∧ Offered (theOffer 40 1 2).mOffer ∧
      ∃ x t, crossOffer 0 (theOffer 40 1 2) 30 20 (oneSeller 40 1 2) = .ok x t ∧
        x.result = .eOfferPartial ∧
          Crosses (oneSeller 40 1 2) t (theOffer 40 1 2).mOffer 30 20 x := by
  have hseller := seller_oneSeller 40 1 2
  have hoffer : Offered (theOffer 40 1 2).mOffer := by
    constructor <;> decide
  have hruns : returns (crossOffer 0 (theOffer 40 1 2) 30 20)
      (fun x _ => x.result = .eOfferPartial) (oneSeller 40 1 2) = true := by
    decide +kernel
  obtain ⟨x, t, hrun, hresult⟩ := exists_of_returns hruns
  clear hruns
  have h := crossOffer_fair 0 (theOffer 40 1 2) 30 20 hseller hoffer
  rw [wp, hrun] at h
  have hresult : x.result = .eOfferPartial := of_decide_eq_true hresult
  refine ⟨hseller, hoffer, x, t, hrun, hresult, h.2 ?_⟩
  rw [hresult]
  decide

/-- The seller has 100, and offers 1 for half a token: the offer is deleted, and nothing of it is
sold. -/
theorem bogus_offer_deleted :
    Seller (oneSeller 1 1 2) 5 ∧ Offered (theOffer 1 1 2).mOffer ∧
      ∃ x t, crossOffer 0 (theOffer 1 1 2) 30 20 (oneSeller 1 1 2) = .ok x t ∧
        x.result = .eOfferTaken ∧ x.numWheatReceived = 0 ∧ t.db.offers[7]? = none ∧
          0 < capped (oneSeller 1 1 2) (theOffer 1 1 2).mOffer - x.numWheatReceived := by
  have hseller := seller_oneSeller 1 1 2
  have hoffer : Offered (theOffer 1 1 2).mOffer := by
    constructor <;> decide
  have hruns : returns (crossOffer 0 (theOffer 1 1 2) 30 20)
      (fun x t => x.result = .eOfferTaken ∧ x.numWheatReceived = 0 ∧ t.db.offers[7]? = none ∧
        0 < capped (oneSeller 1 1 2) (theOffer 1 1 2).mOffer - x.numWheatReceived)
      (oneSeller 1 1 2) = true := by
    decide +kernel
  obtain ⟨x, t, hrun, hresult⟩ := exists_of_returns hruns
  exact ⟨hseller, hoffer, x, t, hrun, of_decide_eq_true hresult⟩

end SmartCore.Transactions.OfferExchange
