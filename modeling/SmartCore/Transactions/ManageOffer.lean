import SmartCore.Ledger.Leaving
import SmartCore.Transactions.OrderBook
import SmartCore.Transactions.Programs

/-!
# Placing an offer

`ManageOfferOpFrame::doApply` works out the most that its source can sell, crosses the offers on the
other side, settles with the source, and leaves in the book what was not sold.

**Theorem (`doApply_within_limits`).** The source never gets more than its line takes and never
sells more than it has. It trades with offers of others at prices that are not worse than its own,
and a trade is rounded by less than one unit. What is left is what it could sell, less what it sold,
and it stays in the book if it is positive.

The most is worked out through the price of the offer, while the trades are at the prices of the
offers that are crossed. It does not matter, because the exchange takes both maxima, and its totals
stay within each of them.
-/

namespace SmartCore.Transactions.ManageOfferOpFrame

open SmartCore.Ledger SmartCore.Rounding OfferExchange

variable {app : Application} {s t u : LedgerState} {d : ℕ} {sourceID : AccountID}
  {op : ManageOfferOp} {asset : Asset}

/-! ## Limits -/

/-- These would indicate a bug in the exchange. -/
def overLimit : Exit := .exception "offer claimed over limit"

def oversold : Exit := .exception "offer sold more than balance"

def Sound (e : Exit) : Prop := e ≠ overLimit ∧ e ≠ oversold

instance (e : Exit) : Decidable (Sound e) := inferInstanceAs (Decidable (_ ∧ _))

theorem sound_of_mem {e : Exit} (h : e ∈ crossFaults) : Sound e := by
  have hall : ∀ e ∈ crossFaults, Sound e := by decide
  exact hall e h

theorem sound_opFailed (r : OperationResult) : Sound (.opFailed r) := ⟨nofun, nofun⟩

/-- What the source has to sell: natively what its account in memory has above the reserve. -/
def funds (s : LedgerState) (sourceID : AccountID) (sheep : Asset) : ℤ :=
  if sheep = .native then
    s.mSourceAccount.elim 0 fun f =>
      max 0 (f.getBalance - reserve s f.mAccountEntry.numSubEntries)
  else sellable s sourceID sheep

/-- What the source can receive. -/
def room (s : LedgerState) (sourceID : AccountID) (wheat : Asset) : ℤ :=
  if wheat = .native then INT64_MAX else receivable s sourceID wheat

/-- The most that is sold: what is asked for, within the funds and within the room at the price of
the offer. -/
def mostSheep (s : LedgerState) (sourceID : AccountID) (op : ManageOfferOp) : ℤ :=
  min (min (funds s sourceID op.selling) (room s sourceID op.buying * op.price.d / op.price.n))
    op.amount

/-- An offer stays passive when it is changed. -/
def isPassive (s : LedgerState) (mPassive : Bool) (op : ManageOfferOp) : Bool :=
  if op.offerID = 0 then mPassive
  else s.db.offers[op.offerID]?.elim false fun row => row.entry.flags &&& PASSIVE_FLAG ≠ 0

/-- A trade with an offer of another account, at a price that is not worse than the one asked for,
and better if the offer is passive. Rounding costs less than one unit of wheat. -/
structure Trade (computePrice : Price → ℤ) (s : LedgerState) (sourceID : AccountID)
    (passive : Bool) (op : ManageOfferOp) (a : ClaimOfferAtom) : Prop where
  offer : ∃ o ∈ book computePrice s.db op.buying op.selling, Bargain o.mOffer a ∧
    o.mOffer.sellerID ≠ sourceID ∧
    o.mOffer.price.n * op.price.n ≤ o.mOffer.price.d * op.price.d ∧
    (passive = true → o.mOffer.price.n * op.price.n < o.mOffer.price.d * op.price.d)
  rounded : a.amountBought * op.price.n < (a.amountSold + 1) * op.price.d

/-- The offer `o` of the source is in the book, with `rest` to sell. -/
structure Stands (t : LedgerState) (sourceID : AccountID) (op : ManageOfferOp) (rest : ℤ)
    (o : OfferEntry) : Prop where
  positive : 0 < rest
  entry : ∃ offerID flags, o = { buildOffer sourceID op flags with offerID, amount := rest }
  row : ∃ lastmodified, t.db.offers[o.offerID]? = some ⟨o, lastmodified⟩

/-- What is left in the book, if `rest` was not sold. -/
def Leaves (s t : LedgerState) (sourceID : AccountID) (op : ManageOfferOp) (rest : ℤ) :
    ManageOfferEffect → Prop
  | .MANAGE_OFFER_CREATED o => op.offerID = 0 ∧ Stands t sourceID op rest o
  | .MANAGE_OFFER_UPDATED o =>
    op.offerID ≠ 0 ∧ o.offerID = op.offerID ∧ Stands t sourceID op rest o
  | .MANAGE_OFFER_DELETED =>
    rest ≤ 0 ∧ Fewer s t ∧ (op.offerID ≠ 0 → t.db.offers[op.offerID]? = none)

/-! ## Loading the lines and the offer -/

/-- Nothing but loads, which leave the source as it is. -/
structure Reads (d : ℕ) (s t : LedgerState) : Prop where
  loaded : Loaded d s t
  source : t.mSourceAccount = s.mSourceAccount

theorem Reads.refl (s : LedgerState) : Reads d s s := ⟨.refl s, rfl⟩

theorem Reads.trans (h : Reads d s t) (h' : Reads d t u) : Reads d s u :=
  ⟨h.loaded.trans h'.loaded, h'.source.trans h.source⟩

/-- The line of the source, if the asset has one. -/
def Line (s : LedgerState) (sourceID : AccountID) (asset : Asset) (line : Option TrustFrame) :
    Prop :=
  asset ≠ .native → ∃ row, s.db.trustlines[LedgerKey.trustLine sourceID asset]? = some row ∧
    line = some (TrustFrame.ofRow row) ∧ (TrustFrame.ofRow row).isAuthorized = true ∧
      (TrustFrame.ofRow row).isValid = true

theorem wp_loadTrustLineIssuer (h : Coherent s) :
    wp (TrustFrame.loadTrustLineIssuer d sourceID asset)
      (fun r t => Reads d s t ∧
        r.1 = s.db.trustlines[LedgerKey.trustLine sourceID asset]?.map TrustFrame.ofRow ∧
          ∀ f, r.1 = some f → f.isValid = true)
      (fun e _ => Sound e) s := by
  simp only [TrustFrame.loadTrustLineIssuer, wp_bind, wp_pure]
  refine wp_mono (wp_and (TrustFrame.wp_loadTrustLine_row h d sourceID asset)
    (WpElsewhere.loadTrustLine d sourceID asset s)) (fun line t ht => ?_)
    fun _ _ he => sound_of_mem (mem_crossFaults he.1)
  obtain ⟨⟨hrow, hvalid, hloaded⟩, helse⟩ := ht
  refine wp_mono (wp_and (AccountFrame.wp_loadAccount_faults d (getIssuer asset))
    (WpElsewhere.loadAccount d (getIssuer asset) t)) (fun issuer u hu => ?_)
    fun _ _ he => sound_of_mem (mem_crossFaults he.1)
  exact ⟨⟨hloaded.trans hu.1.2, hu.2.mSourceAccount.trans helse.mSourceAccount⟩, hrow, hvalid⟩

theorem wp_loadSheepLine (h : Coherent s) :
    wp (loadSheepLine d sourceID asset) (fun r t => Reads d s t ∧ Line s sourceID asset r)
      (fun e _ => Sound e) s := by
  simp only [loadSheepLine, wp_ite, wp_pure, wp_bind]
  refine ⟨fun hnative => ⟨.refl s, fun hne => absurd hnative hne⟩, fun _ => ?_⟩
  refine wp_mono (wp_loadTrustLineIssuer h) (fun r t ht => ?_) fun _ _ he => he
  obtain ⟨hreads, hrow, hvalid⟩ := ht
  obtain ⟨_ | line, _ | issuer⟩ := r
  · exact sound_opFailed _
  · exact sound_opFailed _
  · exact sound_opFailed _
  · simp only [TrustFrame.getBalance, assertion, wp_bind, wp_require, wp_pure, wp_failIf]
    refine ⟨fun _ => ⟨fun _ => sound_opFailed _, fun _ => ⟨fun _ => sound_opFailed _,
      fun hauth => ⟨hreads, fun _ => ?_⟩⟩⟩, fun _ => by decide⟩
    obtain ⟨row, hsome, rfl⟩ := Option.map_eq_some_iff.mp hrow.symm
    exact ⟨row, hsome, rfl, by simpa using hauth, hvalid _ rfl⟩

theorem wp_loadWheatLine (h : Coherent s) :
    wp (loadWheatLine d sourceID asset) (fun r t => Reads d s t ∧ Line s sourceID asset r)
      (fun e _ => Sound e) s := by
  simp only [loadWheatLine, wp_ite, wp_pure, wp_bind]
  refine ⟨fun hnative => ⟨.refl s, fun hne => absurd hnative hne⟩, fun _ => ?_⟩
  refine wp_mono (wp_loadTrustLineIssuer h) (fun r t ht => ?_) fun _ _ he => he
  obtain ⟨hreads, hrow, hvalid⟩ := ht
  obtain ⟨_ | line, _ | issuer⟩ := r
  · exact sound_opFailed _
  · exact sound_opFailed _
  · exact sound_opFailed _
  · simp only [wp_bind, wp_pure, wp_failIf]
    refine ⟨fun _ => sound_opFailed _, fun hauth => ⟨hreads, fun _ => ?_⟩⟩
    obtain ⟨row, hsome, rfl⟩ := Option.map_eq_some_iff.mp hrow.symm
    exact ⟨row, hsome, rfl, by simpa using hauth, hvalid _ rfl⟩

/-- Both lines are those of the state at the beginning. -/
theorem wp_checkOfferValid (h : Coherent s) :
    wp (checkOfferValid d sourceID op)
      (fun r t => Reads d s t ∧ (op.amount ≠ 0 →
        Line s sourceID op.selling r.1 ∧ Line s sourceID op.buying r.2))
      (fun e _ => Sound e) s := by
  simp only [checkOfferValid, wp_ite, wp_pure, wp_bind]
  refine ⟨fun hzero => ⟨.refl s, fun hne => absurd hzero hne⟩, fun _ => ?_⟩
  refine wp_mono (wp_loadSheepLine h) (fun sheepLine t ht => ?_) fun _ _ he => he
  have hcoherent := h.loaded ht.1.loaded
  refine wp_mono (wp_loadWheatLine hcoherent) (fun wheatLine u hu => ?_) fun _ _ he => he
  obtain ⟨hreads, hline⟩ := hu
  unfold Line at hline
  rw [ht.1.loaded.db] at hline
  exact ⟨ht.1.trans hreads, fun _ => ⟨ht.2, hline⟩⟩

/-- The offer that is changed is one of the source. -/
theorem wp_loadSellSheepOffer (mPassive : Bool) :
    wp (loadSellSheepOffer d sourceID mPassive op)
      (fun r t => Reads d s t ∧ (∃ flags, r.1.mOffer = buildOffer sourceID op flags) ∧
        r.2 = isPassive s mPassive op ∧ (op.offerID ≠ 0 →
          ∃ row, s.db.offers[op.offerID]? = some row ∧ row.entry.sellerID = sourceID))
      (fun e _ => Sound e) s := by
  simp only [loadSellSheepOffer, wp_ite, wp_pure, wp_bind]
  refine ⟨fun hne => ?_, fun hzero => ⟨.refl s, ⟨_, rfl⟩, ?_, fun hne => absurd hne hzero⟩⟩
  swap
  · rw [isPassive, if_pos (not_not.mp hzero)]
  simp only [OfferFrame.loadOffer, wp_bind, wp_get]
  cases hrow : s.db.offers[op.offerID]? with
  | none => exact sound_opFailed _
  | some row =>
    by_cases hseller : row.entry.sellerID = sourceID
    · simp only [Option.filter_some, hseller, decide_true, if_true, Option.map_some, wp_ite,
        wp_throw, wp_bind]
      refine ⟨fun _ => by decide, fun _ => ?_⟩
      refine wp_mono (wp_and (wp_recordEntry d _ (E := fun _ _ => False))
        (WpElsewhere.updateDelta d _ s)) (fun _ t ht => ?_) fun _ _ he => he.1.elim
      refine ⟨⟨ht.1, ht.2.mSourceAccount⟩, ⟨_, rfl⟩, ?_, fun _ => ⟨row, rfl, hseller⟩⟩
      rw [isPassive, if_neg hne, hrow]
      rfl
    · simp only [Option.filter_some, hseller, decide_false, Bool.false_eq_true, if_false,
        Option.map_none, wp_pure]
      exact sound_opFailed _

/-! ## Crossing -/

/-- What the limits depend on. -/
structure Same (s t : LedgerState) : Prop where
  db : t.db = s.db
  source : t.mSourceAccount = s.mSourceAccount
  ledger : t.mCurrentLedger = s.mCurrentLedger

theorem Same.mostSheep (h : Same s t) : mostSheep t sourceID op = mostSheep s sourceID op := by
  unfold ManageOfferOpFrame.mostSheep funds room sellable receivable reserve
  rw [h.db, h.source, h.ledger]

/-- The numbers of the source: its account in memory, and the rows of its lines. -/
structure Amounts (s : LedgerState) (sourceID : AccountID) : Prop where
  account : ∀ f, s.mSourceAccount = some f → 0 ≤ f.getBalance ∧ f.getBalance ≤ INT64_MAX
  line : ∀ asset row, s.db.trustlines[LedgerKey.trustLine sourceID asset]? = some row →
    InRange row.entry.balance ∧ InRange row.entry.limit

/-- What `doCheckValid` and the type of a 64-bit number say of an operation. -/
structure Checked (op : ManageOfferOp) : Prop where
  amount : 0 ≤ op.amount ∧ op.amount ≤ INT64_MAX
  n : 0 < op.price.n
  d : 0 < op.price.d

theorem wp_maxSheep {line : Option TrustFrame} (h : Amounts s sourceID)
    (hline : Line s sourceID asset line) :
    wp (maxSheep asset line)
      (fun r t => t = s ∧ r = funds s sourceID asset ∧ InRange r) (fun e _ => Sound e) s := by
  simp only [maxSheep, wp_ite, wp_bind]
  refine ⟨fun hnative => ?_, fun hne => ?_⟩
  · simp only [getSourceAccount, wp_bind, wp_get, wp_deref]
    refine ⟨fun f hf => ?_, fun _ => by decide⟩
    obtain ⟨hnonneg, hmax⟩ := h.account f hf
    refine wp_mono (wp_getBalanceAboveReserve ⟨le_trans (by decide) hnonneg, hmax⟩ hnonneg)
      (fun r t ht => ?_) fun _ _ he => he
    obtain ⟨rfl, rfl⟩ := ht
    have hreserve : 0 ≤ reserve t f.mAccountEntry.numSubEntries := by
      unfold reserve
      omega
    refine ⟨rfl, ?_, ?_⟩
    · rw [funds, if_pos hnative, hf]
      rfl
    · unfold InRange INT64_MIN INT64_MAX at *
      omega
  · obtain ⟨row, hrow, rfl, hauth, -⟩ := hline hne
    simp only [wp_deref, TrustFrame.getBalance, assertion, wp_bind, wp_require, wp_pure]
    refine ⟨fun f hf => ⟨fun _ => ?_, fun _ => by decide⟩, by simp⟩
    obtain rfl := Option.some.inj hf
    refine ⟨trivial, ?_, (h.line _ row hrow).1⟩
    rw [funds, if_neg hne, sellable, if_neg hne, hrow]
    exact (if_pos hauth).symm

/-- The room on a line may wrap around, but then it is negative. -/
theorem wp_maxWheat {line : Option TrustFrame} (h : Amounts s sourceID)
    (hline : Line s sourceID asset line) :
    wp (maxWheat asset line)
      (fun r t => t = s ∧ r ≤ INT64_MAX ∧ (0 ≤ r → r = room s sourceID asset))
      (fun e _ => Sound e) s := by
  simp only [maxWheat, wp_ite, wp_pure, wp_bind]
  refine ⟨fun hnative => ⟨trivial, le_rfl, fun _ => (if_pos hnative).symm⟩, fun hne => ?_⟩
  obtain ⟨row, hrow, rfl, hauth, hvalid⟩ := hline hne
  obtain ⟨⟨hmin, -⟩, -, hmax⟩ := h.line _ row hrow
  have hle := (TrustFrame.isValid_iff.mp hvalid).2.2.2.2
  have hreceive : (TrustFrame.ofRow row).getMaxAmountReceive =
      int64 (row.entry.limit - row.entry.balance) := if_pos hauth
  simp only [wp_deref, wp_failIf]
  refine ⟨fun f hf => ⟨fun _ => sound_opFailed _, fun _ => ⟨trivial, ?_, fun hnonneg => ?_⟩⟩, by simp⟩
  · obtain rfl := Option.some.inj hf
    rw [hreceive]
    exact (int64_inRange _).2
  · obtain rfl := Option.some.inj hf
    rw [hreceive] at hnonneg ⊢
    rw [room, if_neg hne, receivable, if_neg hne, hrow, Option.elim_some, if_pos hauth]
    refine int64_eq_of_nonneg (sub_nonneg.mpr hle) ?_ hnonneg
    unfold INT64_MIN at hmin
    unfold INT64_MAX at hmax
    omega

/-- The filter keeps what is another's and not worse. -/
theorem filter_eq_eKeep {offer : OfferEntry} {passive : Bool} {o : OfferFrame}
    (h : filter sourceID offer passive o = .eKeep) :
    o.mOffer.sellerID ≠ sourceID ∧
      o.mOffer.price.n * offer.price.n ≤ o.mOffer.price.d * offer.price.d ∧
      (passive = true → o.mOffer.price.n * offer.price.n < o.mOffer.price.d * offer.price.d) := by
  unfold filter Price.ge Price.gt at h
  dsimp only at h
  split_ifs at h with _ hworse hself
  refine ⟨hself, not_lt.mp fun hlt => hworse (Or.inr hlt), fun hpassive => ?_⟩
  exact not_le.mp fun hle => hworse (Or.inl ⟨hpassive, hle⟩)

theorem Trade.of_bargain {computePrice : Price → ℤ} {passive : Bool} {a : ClaimOfferAtom}
    {o : OfferFrame} {flags : ℕ} (hop : Checked op)
    (hmem : o ∈ book computePrice s.db op.buying op.selling)
    (hkeep : filter sourceID (buildOffer sourceID op flags) passive o = .eKeep)
    (h : Bargain o.mOffer a) : Trade computePrice s sourceID passive op a := by
  obtain ⟨hseller, hprice, hpassive⟩ := filter_eq_eKeep hkeep
  refine ⟨⟨o, hmem, h, hseller, hprice, hpassive⟩, ?_⟩
  have hsold : 0 ≤ a.amountSold + 1 := by
    have := h.amounts.1
    omega
  exact mul_lt_mul_of_price_le h.rounded hprice hsold h.positive.2 hop.n

/-- What the crossing comes to. -/
structure Crossing (computePrice : Price → ℤ) (s t : LedgerState) (sourceID : AccountID)
    (passive : Bool) (op : ManageOfferOp) (r : ℤ × Conversion) : Prop where
  trades : ∀ a ∈ r.2.mOfferTrail, Trade computePrice s sourceID passive op a
  rest : max 0 (int64 (r.1 - r.2.sheepSend)) =
    max 0 (mostSheep s sourceID op - (r.2.mOfferTrail.map (·.amountBought)).sum)
  fewer : Fewer s t
  amount : 0 < r.2.wheatReceived → op.amount ≠ 0
  wheat : 0 < r.2.wheatReceived → r.2.wheatReceived ≤ room s sourceID op.buying
  sheep : 0 < r.2.wheatReceived → 0 ≤ r.2.sheepSend ∧ r.2.sheepSend ≤ INT64_MAX ∧
    r.2.sheepSend ≤ funds s sourceID op.selling

/-- Nothing is bought. -/
theorem Crossing.none {computePrice : Price → ℤ} {passive : Bool} {maxSheepSend maxWheat : ℤ}
    (hmost : max 0 (int64 maxSheepSend) = max 0 (mostSheep s sourceID op)) :
    Crossing computePrice s s sourceID passive op
      (maxSheepSend, { maxSheepSend, maxWheatReceive := maxWheat }) := by
  refine ⟨nofun, ?_, .refl s, fun h => absurd h (lt_irrefl 0), fun h => absurd h (lt_irrefl 0),
    fun h => absurd h (lt_irrefl 0)⟩
  simpa using hmost

/-- What the exchange comes to, if there is something to sell and room for what it gets. -/
theorem Crossing.of_adds {computePrice : Price → ℤ} {passive : Bool} {c : Conversion} {flags : ℕ}
    (hop : Checked op) (hne : op.amount ≠ 0)
    (hpos : 0 < mostSheep s sourceID op) (hroom : 0 ≤ room s sourceID op.buying)
    (hadds : c.Adds (mostSheep s sourceID op) (room s sourceID op.buying))
    (hbargains : Bargains (filter sourceID (buildOffer sourceID op flags) passive)
      (book computePrice s.db op.buying op.selling) [] c.mOfferTrail)
    (hfewer : Fewer s t) :
    Crossing computePrice s t sourceID passive op (mostSheep s sourceID op, c) := by
  have hmax : mostSheep s sourceID op ≤ INT64_MAX := (min_le_right _ _).trans hop.amount.2
  have hfunds : mostSheep s sourceID op ≤ funds s sourceID op.selling :=
    (min_le_left _ _).trans (min_le_left _ _)
  have hsheepLeft := hadds.sheepLeft
  have hwheatLeft := hadds.wheatLeft
  obtain ⟨hsheep, hsheepLe⟩ := hadds.sheepNonneg
  have hsheepLe := hsheepLe hpos.le
  have hwheatLe := hadds.wheatNonneg.2 hroom
  refine ⟨fun a ha => ?_, ?_, hfewer, fun _ => hne, fun _ => ?_, fun _ => ⟨hsheep, ?_, ?_⟩⟩
  · rcases hbargains a ha with hmem | ⟨o, ho, hkeep, hbargain⟩
    · cases hmem
    · exact .of_bargain hop ho hkeep hbargain
  · have hfits : int64 (mostSheep s sourceID op - c.sheepSend) =
        mostSheep s sourceID op - c.sheepSend :=
      int64_of_inRange ⟨le_trans (by decide : INT64_MIN ≤ 0) (by omega), by omega⟩
    show max 0 (int64 (mostSheep s sourceID op - c.sheepSend)) = _
    rw [hfits, hadds.sheepSend]
  · show c.wheatReceived ≤ _
    omega
  · show c.sheepSend ≤ _
    omega
  · show c.sheepSend ≤ _
    omega

/-- **The crossing** stays within the maxima, and so within the limits. -/
theorem wp_crossing {offer : OfferFrame × Bool} {lines : Option TrustFrame × Option TrustFrame}
    {flags : ℕ} (hop : Checked op) (h : Amounts s sourceID) (hkeyed : Keyed s.db)
    (hlines : op.amount ≠ 0 →
      Line s sourceID op.selling lines.1 ∧ Line s sourceID op.buying lines.2)
    (hoffer : offer.1.mOffer = buildOffer sourceID op flags) :
    wp (Program.crossing app d sourceID op offer lines)
      (fun r t => Crossing app.computePrice s t sourceID offer.2 op r) (fun e _ => Sound e) s := by
  simp only [Program.crossing, wp_ite, wp_pure, wp_bind]
  refine ⟨fun hzero => .none ?_, fun hne => ?_⟩
  · have hle : mostSheep s sourceID op ≤ 0 := hzero ▸ min_le_right _ _
    rw [max_eq_left hle]
    rfl
  obtain ⟨hsheepLine, hwheatLine⟩ := hlines hne
  refine wp_mono (wp_maxSheep h hsheepLine) (fun maxSheep t ht => ?_) fun _ _ he => he
  obtain ⟨rfl, hfunds, hinrange⟩ := ht
  refine wp_mono (wp_maxWheat h hwheatLine) (fun maxWheat u hu => ?_) fun _ _ he => he
  obtain ⟨rfl, hwheatMax, hroom⟩ := hu
  rw [wp_bigDivide, quotient_getD, hoffer]
  refine ⟨fun hpos => ?_, fun _ => by decide⟩
  obtain rfl := hroom hpos.1
  have hquotient : 0 ≤ room u sourceID op.buying * op.price.d / op.price.n :=
    worth_nonneg hpos.1 hop.d.le hop.n
  have hmost : min (min maxSheep (min (room u sourceID op.buying *
      (buildOffer sourceID op flags).price.d / (buildOffer sourceID op flags).price.n) INT64_MAX))
      (buildOffer sourceID op flags).amount = mostSheep u sourceID op := by
    have := hop.amount.2
    show min (min maxSheep (min (room u sourceID op.buying * op.price.d / op.price.n) INT64_MAX))
      op.amount = _
    rw [mostSheep, ← hfunds]
    omega
  have hmostMax : mostSheep u sourceID op ≤ INT64_MAX := (min_le_right _ _).trans hop.amount.2
  simp only [hmost]
  by_cases hmore : 0 < room u sourceID op.buying ∧ 0 < mostSheep u sourceID op
  · refine wp_mono (wp_convertWithOffers app (d + 1) op.selling op.buying _ hkeyed hmostMax
      hwheatMax) (fun r t ht => ?_) fun _ _ he => sound_of_mem he
    obtain ⟨hadds, hbargains, hfewer⟩ := ht
    rw [wp_failIf]
    exact ⟨fun _ => sound_opFailed _,
      fun _ => .of_adds hop hne hmore.2 hpos.1 hadds hbargains hfewer⟩
  · -- the loop is not entered
    have hrun : convertWithOffers app (d + 1) op.selling (mostSheep u sourceID op) op.buying
        (room u sourceID op.buying) (filter sourceID (buildOffer sourceID op flags) offer.2) u =
        .ok (.eOK, ⟨0, 0, mostSheep u sourceID op, room u sourceID op.buying, 0, []⟩) u :=
      convertBatches_done _ hmore
    rw [wp, hrun]
    refine (wp_failIf _ _).mpr ⟨fun _ => sound_opFailed _, fun _ => .none ?_⟩
    have hfits : int64 (mostSheep u sourceID op) = mostSheep u sourceID op := by
      have hmin : INT64_MIN ≤ 0 := by decide
      have := hop.amount
      have := hinrange.1
      refine int64_of_inRange ⟨?_, hmostMax⟩
      rw [mostSheep, ← hfunds]
      omega
    rw [hfits]

/-! ## Settling -/

theorem keepsOffers_getSourceAccount : KeepsOffers getSourceAccount := by
  intro s
  simp only [getSourceAccount, wp_bind, wp_get, wp_deref]
  exact ⟨fun _ _ => trivial, fun _ => by decide⟩

theorem keepsOffers_setSourceAccount (f : AccountFrame) : KeepsOffers (setSourceAccount f) :=
  fun _ => rfl

theorem keepsOffers_storeSourceAccount : KeepsOffers (storeSourceAccount d) :=
  keepsOffers_getSourceAccount.bind fun f => (keepsOffers_storeAccount f).bind fun g =>
    keepsOffers_setSourceAccount g

theorem keepsOffers_addNumEntries (f : AccountFrame) (count : ℤ) :
    KeepsOffers (f.addNumEntries count) := by
  intro s
  simp only [AccountFrame.addNumEntries, getMinBalance, wp_ite, wp_throw, wp_bind, wp_get, wp_pure]
  exact ⟨fun _ => by decide, fun _ => ⟨fun _ => trivial, fun _ => trivial⟩⟩

theorem keepsOffers_deref {α : Type} (o : Option α) : KeepsOffers (deref o .abort) := by
  intro s
  rw [wp_deref]
  exact ⟨fun _ _ => rfl, fun _ => by decide⟩

theorem keepsOffers_header : KeepsOffers (getHeader d) := fun _ => rfl

theorem keepsOffers_setHeader (header : LedgerHeader) : KeepsOffers (setHeader d header) := by
  intro s
  rw [setHeader, wp_updateDelta]
  exact ⟨fun _ _ => rfl, by simp⟩

/-- What is added to a line fits, so it is added. -/
theorem wp_adjustSource {line : Option TrustFrame} {amount : ℤ} (what : String)
    (hline : asset ≠ .native → ∃ row, line = some (TrustFrame.ofRow row) ∧
      (amount ≠ 0 → Addable row amount)) :
    wp (adjustSource d asset line amount what) (fun _ t => t.db.offers = s.db.offers)
      (fun e _ => Sound e) s := by
  rw [adjustSource, wp_ite]
  refine ⟨fun _ => ?_, fun hne => ?_⟩
  · have hkeeps : KeepsOffers (do
        setSourceAccount (← PathPaymentOpFrame.addNative d (← getSourceAccount) amount)) :=
      keepsOffers_getSourceAccount.bind fun f => (keepsOffers_storeAccount _).bind fun g =>
        keepsOffers_setSourceAccount g
    exact wp_mono (hkeeps s) (fun _ _ ht => ht) fun _ _ he => sound_of_mem he
  · obtain ⟨row, rfl, hadd⟩ := hline hne
    simp only [wp_bind, wp_deref]
    refine ⟨fun f hf => ?_, by simp⟩
    obtain rfl := Option.some.inj hf
    have hsome : ∃ g, (TrustFrame.ofRow row).addBalance amount = some g := by
      by_cases hzero : amount = 0
      · exact ⟨TrustFrame.ofRow row, if_pos hzero⟩
      · exact ⟨_, addBalance_eq (hadd hzero) hzero⟩
    obtain ⟨g, hg⟩ := hsome
    rw [hg]
    exact wp_mono ((keepsOffers_storeLine g).bind (fun _ => .pure ()) s) (fun _ _ ht => ht)
      fun _ _ he => sound_of_mem he

/-- A new offer is added to the book. -/
theorem wp_storeOffer_new {offer : OfferFrame} (hpos : 0 < offer.mOffer.amount) :
    wp (storeOffer d true offer)
      (fun effect t => ∃ offerID lastmodified,
        effect = .MANAGE_OFFER_CREATED { offer.mOffer with offerID } ∧
          t.db.offers[offerID]? = some ⟨{ offer.mOffer with offerID }, lastmodified⟩)
      (fun e _ => Sound e) s := by
  have hsound : ∀ (e : Exit) (_ : LedgerState), e ∈ crossFaults → Sound e :=
    fun _ _ he => sound_of_mem he
  rw [storeOffer, if_pos hpos, if_pos rfl, wp_bind]
  refine wp_mono (keepsOffers_getSourceAccount s) (fun f t₁ _ => ?_) hsound
  rw [wp_bind]
  generalize (1 : ℤ) = count
  refine wp_mono (keepsOffers_addNumEntries f count t₁) (fun r t₂ _ => ?_) hsound
  cases r with
  | none => exact sound_opFailed _
  | some source =>
    simp only [wp_bind]
    refine wp_mono (keepsOffers_setSourceAccount source t₂) (fun _ t₃ _ => ?_) hsound
    refine wp_mono (keepsOffers_header t₃) (fun header t₄ _ => ?_) hsound
    refine wp_mono (keepsOffers_setHeader _ t₄) (fun _ t₅ _ => ?_) hsound
    refine wp_mono OfferFrame.wp_storeAdd_row (fun g t₆ ht₆ => ?_)
      fun _ _ he => sound_of_mem (mem_crossFaults he)
    obtain ⟨hg, lastmodified, hdb⟩ := ht₆
    refine wp_mono (keepsOffers_storeSourceAccount t₆) (fun _ t₇ ht₇ => ?_) hsound
    refine ⟨(header.idPool + 1) % 2 ^ 64, lastmodified, by rw [hg], ?_⟩
    rw [ht₇, hdb]
    exact Std.ExtTreeMap.getElem?_insert_self

/-- An offer that is there stays with its seller. -/
theorem wp_storeOffer_update {offer : OfferFrame} (hpos : 0 < offer.mOffer.amount)
    (hseller : ∀ row, s.db.offers[offer.mOffer.offerID]? = some row →
      row.entry.sellerID = offer.mOffer.sellerID) :
    wp (storeOffer d false offer)
      (fun effect t => effect = .MANAGE_OFFER_UPDATED offer.mOffer ∧
        ∃ lastmodified, t.db.offers[offer.mOffer.offerID]? = some ⟨offer.mOffer, lastmodified⟩)
      (fun e _ => Sound e) s := by
  rw [storeOffer, if_pos hpos, if_neg nofun, wp_bind]
  refine wp_mono OfferFrame.wp_storeChange_row (fun g t ht => ?_)
    fun _ _ he => sound_of_mem (mem_crossFaults he)
  obtain ⟨hg, row, lastmodified, hrow, hdb⟩ := ht
  refine ⟨by rw [hg], lastmodified, ?_⟩
  rw [hdb, Std.ExtTreeMap.getElem?_insert_self, hseller row hrow]

/-- What is sold out is deleted, if it was there. -/
theorem wp_storeOffer_delete {creatingNewOffer : Bool} {offer : OfferFrame}
    (hpos : ¬ 0 < offer.mOffer.amount) :
    wp (storeOffer d creatingNewOffer offer)
      (fun effect t => effect = .MANAGE_OFFER_DELETED ∧ Fewer s t ∧
        (creatingNewOffer = false → t.db.offers[offer.mOffer.offerID]? = none))
      (fun e _ => Sound e) s := by
  have hsound : ∀ (e : Exit) (_ : LedgerState), e ∈ crossFaults → Sound e :=
    fun _ _ he => sound_of_mem he
  rw [storeOffer, if_neg hpos, wp_bind, wp_runIf]
  refine ⟨fun hthere => ?_, fun hnew => ?_⟩
  swap
  · refine ⟨rfl, .refl s, fun hthere => absurd ?_ hnew⟩
    rw [hthere]
    rfl
  rw [wp_bind]
  refine wp_mono OfferFrame.wp_storeDelete_row (fun _ t ht => ?_)
    fun _ _ he => sound_of_mem (mem_crossFaults he)
  have hkeeps : KeepsOffers (do
      setSourceAccount (← deref (← (← getSourceAccount).addNumEntries (-1)) .abort)
      storeSourceAccount d) := by
    generalize (-1 : ℤ) = count
    exact keepsOffers_getSourceAccount.bind fun f => (keepsOffers_addNumEntries f count).bind
      fun r => (keepsOffers_deref r).bind fun g => (keepsOffers_setSourceAccount g).bind fun _ =>
        keepsOffers_storeSourceAccount
  refine wp_mono (hkeeps t) (fun _ u hu => ?_) hsound
  have herase : u.db.offers = s.db.offers.erase offer.mOffer.offerID := by rw [hu, ht]
  refine ⟨rfl, fewer_of_erase herase, fun _ => ?_⟩
  rw [herase]
  exact Std.ExtTreeMap.getElem?_erase_self

/-- **What is left of the offer** is stored, if it is positive. -/
theorem wp_storeOffer {offer : OfferFrame} {flags : ℕ} {rest : ℤ}
    (hoffer : ∃ amount, offer.mOffer = { buildOffer sourceID op flags with amount } ∧
      max 0 amount = max 0 rest)
    (hfewer : Fewer s t) (hrow : op.offerID ≠ 0 →
      ∃ row, s.db.offers[op.offerID]? = some row ∧ row.entry.sellerID = sourceID) :
    wp (storeOffer d (op.offerID = 0) offer)
      (fun effect u => Leaves s u sourceID op rest effect) (fun e _ => Sound e) t := by
  obtain ⟨amount, hentry, hmax⟩ := hoffer
  have hamount : offer.mOffer.amount = amount := by rw [hentry]
  have hid : offer.mOffer.offerID = op.offerID := by
    rw [hentry]
    rfl
  by_cases hpos : 0 < offer.mOffer.amount
  · obtain ⟨rfl, hrest⟩ : amount = rest ∧ 0 < rest := by omega
    by_cases hnew : op.offerID = 0
    · rw [decide_eq_true hnew]
      refine wp_mono (wp_storeOffer_new hpos) (fun effect u hu => ?_) fun _ _ he => he
      obtain ⟨offerID, lastmodified, rfl, hrow⟩ := hu
      exact ⟨hnew, hrest, ⟨offerID, flags, by rw [hentry]⟩, lastmodified, hrow⟩
    · obtain ⟨row₀, hrow₀, hseller⟩ := hrow hnew
      rw [decide_eq_false hnew]
      refine wp_mono (wp_storeOffer_update hpos fun row hrow => ?_) (fun effect u hu => ?_)
        fun _ _ he => he
      · rw [hid] at hrow
        obtain ⟨row₁, hrow₁, hsame⟩ := hfewer _ row hrow
        obtain rfl := Option.some.inj (hrow₀.symm.trans hrow₁)
        rw [hsame, hseller, hentry]
        rfl
      · obtain ⟨rfl, lastmodified, hrow⟩ := hu
        exact ⟨hnew, hid, hrest, ⟨op.offerID, flags, hentry⟩, lastmodified, hrow⟩
  · have hrest : rest ≤ 0 := by omega
    refine wp_mono (wp_storeOffer_delete hpos) (fun effect u hu => ?_) fun _ _ he => he
    obtain ⟨rfl, hless, hnone⟩ := hu
    refine ⟨hrest, hfewer.trans hless, fun hne => ?_⟩
    rw [← hid]
    exact hnone (decide_eq_false hne)

/-- What the exchange gets is within the room of the line. -/
theorem addable_wheat {row : Row TrustLineEntry} {wheat : ℤ} (h : Amounts s sourceID)
    (hne : asset ≠ .native)
    (hrow : s.db.trustlines[LedgerKey.trustLine sourceID asset]? = some row)
    (hauth : (TrustFrame.ofRow row).isAuthorized = true)
    (hvalid : (TrustFrame.ofRow row).isValid = true) (hpos : 0 ≤ wheat)
    (hle : wheat ≤ room s sourceID asset) : Addable row wheat := by
  obtain ⟨⟨hmin, -⟩, -, hmax⟩ := h.line _ row hrow
  obtain ⟨-, -, howes, -, hlimit⟩ := TrustFrame.isValid_iff.mp hvalid
  rw [room, if_neg hne, receivable, if_neg hne, hrow, Option.elim_some, if_pos hauth] at hle
  refine ⟨hauth, by omega, by omega, hmax, howes.imp_left fun hbalance => ?_⟩
  exact add_nonneg hbalance hpos

/-- What the exchange sells is on the line. -/
theorem addable_sheep {row : Row TrustLineEntry} {sheep : ℤ} (h : Amounts s sourceID)
    (hne : asset ≠ .native)
    (hrow : s.db.trustlines[LedgerKey.trustLine sourceID asset]? = some row)
    (hauth : (TrustFrame.ofRow row).isAuthorized = true)
    (hvalid : (TrustFrame.ofRow row).isValid = true) (hpos : 0 ≤ sheep)
    (hle : sheep ≤ funds s sourceID asset) : Addable row (-sheep) := by
  have hmin : INT64_MIN ≤ 0 := by decide
  obtain ⟨-, -, hmax⟩ := h.line _ row hrow
  have hlimit : row.entry.balance ≤ row.entry.limit := (TrustFrame.isValid_iff.mp hvalid).2.2.2.2
  rw [funds, if_neg hne, sellable, if_neg hne, hrow, Option.elim_some, if_pos hauth] at hle
  exact ⟨hauth, by omega, by omega, hmax, Or.inl (by omega)⟩

/-- **Settling with the source** does not fail for its limits. -/
theorem wp_settle {computePrice : Price → ℤ} {passive : Bool} {r : ℤ × Conversion}
    {offer : OfferFrame} {lines : Option TrustFrame × Option TrustFrame} {flags : ℕ}
    (h : Amounts s sourceID)
    (hlines : op.amount ≠ 0 →
      Line s sourceID op.selling lines.1 ∧ Line s sourceID op.buying lines.2)
    (hoffer : offer.mOffer = buildOffer sourceID op flags)
    (hrow : op.offerID ≠ 0 →
      ∃ row, s.db.offers[op.offerID]? = some row ∧ row.entry.sellerID = sourceID)
    (hcross : Crossing computePrice s t sourceID passive op r) :
    wp (Program.settle d op offer lines r)
      (fun result u => ∃ effect, result = .MANAGE_OFFER_SUCCESS r.2.mOfferTrail effect ∧
        Leaves s u sourceID op
          (mostSheep s sourceID op - (r.2.mOfferTrail.map (·.amountBought)).sum) effect)
      (fun e _ => Sound e) t := by
  have hstore : ∀ u, Fewer s u → wp (do
      let effect ← storeOffer (d + 1) (op.offerID = 0)
        { offer with mOffer := { offer.mOffer with amount := int64 (r.1 - r.2.sheepSend) } }
      return ManageOfferResult.MANAGE_OFFER_SUCCESS r.2.mOfferTrail effect)
      (fun result u => ∃ effect, result = .MANAGE_OFFER_SUCCESS r.2.mOfferTrail effect ∧
        Leaves s u sourceID op
          (mostSheep s sourceID op - (r.2.mOfferTrail.map (·.amountBought)).sum) effect)
      (fun e _ => Sound e) u := by
    intro u hfewer
    rw [wp_bind]
    refine wp_mono (wp_storeOffer ⟨_, by rw [hoffer], hcross.rest⟩ hfewer hrow)
      (fun effect v hv => ⟨effect, rfl, hv⟩) fun _ _ he => he
  rw [Program.settle, wp_bind, wp_runIf]
  refine ⟨fun hpos => ?_, fun _ => hstore t hcross.fewer⟩
  obtain ⟨hsheepLine, hwheatLine⟩ := hlines (hcross.amount hpos)
  obtain ⟨hsheep, hsheepMax, hsheepFunds⟩ := hcross.sheep hpos
  have hneg : int64 (-r.2.sheepSend) = -r.2.sheepSend := by
    refine int64_of_inRange ⟨?_, (neg_nonpos.mpr hsheep).trans (by decide)⟩
    unfold INT64_MIN
    unfold INT64_MAX at hsheepMax
    omega
  rw [wp_bind]
  refine wp_mono (wp_adjustSource _ fun hne => ?_) (fun _ u hu => ?_) fun _ _ he => he
  · obtain ⟨row, hrow, hline, hauth, hvalid⟩ := hwheatLine hne
    exact ⟨row, hline, fun _ => addable_wheat h hne hrow hauth hvalid hpos.le (hcross.wheat hpos)⟩
  · rw [hneg]
    refine wp_mono (wp_adjustSource _ fun hne => ?_) (fun _ v hv => ?_) fun _ _ he => he
    · obtain ⟨row, hrow, hline, hauth, hvalid⟩ := hsheepLine hne
      exact ⟨row, hline, fun _ => addable_sheep h hne hrow hauth hvalid hsheep hsheepFunds⟩
    · exact hstore v (hcross.fewer.trans (fewer_of_eq (hv.trans hu)))

/-! ## Applying -/

/-- Leaving the scope does not touch the rows. -/
theorem wp_scope_db {α : Type} {x : LedgerM α} {Q : α → LedgerState → Prop} {E : Exit → Prop}
    (hdb : ∀ a t t', t'.db = t.db → Q a t → Q a t')
    (hcommit : E (.exception "unexpected header state")) (habort : E .abort)
    (hx : wp x Q (fun e _ => E e) (withDelta d s)) :
    wp (nested d (sqlTransaction x)) Q (fun e _ => E e) s := by
  simp only [nested, openDelta, rollback, commit, wp_bind, wp_modify, wp_tryCatch,
    wp_sqlTransaction, wp_throw, wp_pure, wp_get, wp_ite, wp_updateDelta]
  refine wp_mono hx (fun a t ht => ⟨fun _ => hcommit, fun _ => ⟨fun δ _ => ?_, fun _ => habort⟩⟩)
    fun _ _ he => he
  exact hdb a t _ rfl ht

theorem Same.trade {computePrice : Price → ℤ} {passive : Bool} {a : ClaimOfferAtom} (h : Same s t)
    (htrade : Trade computePrice t sourceID passive op a) :
    Trade computePrice s sourceID passive op a := by
  obtain ⟨hoffer, hrounded⟩ := htrade
  rw [h.db] at hoffer
  exact ⟨hoffer, hrounded⟩

theorem Same.leaves {rest : ℤ} {effect : ManageOfferEffect} (h : Same s t)
    (hleaves : Leaves t u sourceID op rest effect) : Leaves s u sourceID op rest effect := by
  cases effect with
  | MANAGE_OFFER_CREATED o => exact hleaves
  | MANAGE_OFFER_UPDATED o => exact hleaves
  | MANAGE_OFFER_DELETED =>
    obtain ⟨hrest, hfewer, hnone⟩ := hleaves
    exact ⟨hrest, (fewer_of_eq (by rw [h.db])).trans hfewer, hnone⟩

theorem Leaves.of_db {rest : ℤ} {effect : ManageOfferEffect} (hdb : u.db = t.db)
    (h : Leaves s t sourceID op rest effect) : Leaves s u sourceID op rest effect := by
  cases effect with
  | MANAGE_OFFER_CREATED o => exact ⟨h.1, h.2.1, h.2.2, hdb ▸ h.2.3⟩
  | MANAGE_OFFER_UPDATED o => exact ⟨h.1, h.2.1, h.2.2.1, h.2.2.2, hdb ▸ h.2.2.3⟩
  | MANAGE_OFFER_DELETED =>
    exact ⟨h.1, h.2.1.trans (fewer_of_eq (by rw [hdb])), hdb ▸ h.2.2⟩

theorem checked_of_doCheckValid (h : doCheckValid app op s = .ok () t)
    (hmax : op.amount ≤ INT64_MAX) : Checked op := by
  have hwp : wp (doCheckValid app op) (fun _ _ => 0 ≤ op.amount ∧ 0 < op.price.d ∧ 0 < op.price.n)
      (fun _ _ => True) s := by
    simp only [doCheckValid, wp_bind, wp_failIf]
    refine ⟨fun _ => trivial, fun _ => ⟨fun _ => trivial, fun _ => ⟨fun _ => trivial, fun h => ?_⟩⟩⟩
    omega
  obtain ⟨hamount, hd, hn⟩ := of_wp_ok hwp h
  exact ⟨⟨hamount, hmax⟩, hn, hd⟩

/-- **An offer trades within its limits.** Neither of the two exceptions is thrown. Each trade is
with an offer of another account, at a price that is not worse than the one asked for, or better if
the offer is passive, and rounded by less than one unit. What is left in the book is the most that
the source can sell, less what it sold, if that is positive. -/
theorem doApply_within_limits (app : Application) (d : ℕ) (sourceID : AccountID) (mPassive : Bool)
    (op : ManageOfferOp) (s : LedgerState)
    (hchecked : ∃ s₀ s₁, doCheckValid app op s₀ = .ok () s₁) (hmax : op.amount ≤ INT64_MAX)
    (hcoherent : Coherent s) (hamounts : Amounts s sourceID) (hkeyed : Keyed s.db) :
    wp (doApply app d sourceID mPassive op)
      (fun r t => ∃ claimed effect, r = .MANAGE_OFFER_SUCCESS claimed effect ∧
        (∀ a ∈ claimed, Trade app.computePrice s sourceID (isPassive s mPassive op) op a) ∧
        Leaves s t sourceID op
          (mostSheep s sourceID op - (claimed.map (·.amountBought)).sum) effect)
      (fun e _ => e ≠ overLimit ∧ e ≠ oversold) s := by
  obtain ⟨s₀, s₁, hvalid⟩ := hchecked
  have hop := checked_of_doCheckValid hvalid hmax
  rw [Program.manageOffer_doApply_eq, wp_bind]
  refine wp_mono (wp_checkOfferValid hcoherent) (fun lines t ht => ?_) fun _ _ he => he
  obtain ⟨hreads, hlines⟩ := ht
  rw [wp_bind]
  refine wp_mono (wp_loadSellSheepOffer mPassive) (fun offer u hu => ?_) fun _ _ he => he
  obtain ⟨hreads', ⟨flags, hoffer⟩, hpassive, hrow⟩ := hu
  have hsame : Same s (withDelta d u) :=
    ⟨(hreads.trans hreads').loaded.db, (hreads.trans hreads').source,
      (hreads.trans hreads').loaded.ledger⟩
  have hdb : (withDelta d u).db = t.db := hreads'.loaded.db
  have hpassive : offer.2 = isPassive s mPassive op := by
    rw [hpassive, isPassive, isPassive, hreads.loaded.db]
  have hamounts' : Amounts (withDelta d u) sourceID :=
    ⟨hsame.source ▸ hamounts.account, hsame.db ▸ hamounts.line⟩
  have hlines' : op.amount ≠ 0 → Line (withDelta d u) sourceID op.selling lines.1 ∧
      Line (withDelta d u) sourceID op.buying lines.2 := by
    unfold Line at hlines ⊢
    rw [hsame.db]
    exact hlines
  refine wp_scope_db (fun r v v' hv hr => ?_) (by decide) (by decide) ?_
  · obtain ⟨claimed, effect, hresult, htrades, hleaves⟩ := hr
    exact ⟨claimed, effect, hresult, htrades, hleaves.of_db hv⟩
  rw [wp_bind]
  refine wp_mono (wp_crossing hop hamounts' (hsame.db ▸ hkeyed) hlines' hoffer)
    (fun r v hcross => ?_) fun _ _ he => he
  refine wp_mono (wp_settle hamounts' hlines' hoffer (hdb ▸ hrow) hcross) (fun result w hw => ?_)
    fun _ _ he => he
  obtain ⟨effect, hresult, hleaves⟩ := hw
  refine ⟨r.2.mOfferTrail, effect, hresult, fun a ha => hsame.trade (hpassive ▸ hcross.trades a ha),
    ?_⟩
  rw [← hsame.mostSheep]
  exact hsame.leaves hleaves

/-- Account 9 has 100, and 30 of the credit of account 1. -/
def oneBuyer (amount n d : ℤ) : LedgerState :=
  { oneSeller amount n d with
    db := { (oneSeller amount n d).db with
      accounts := ((oneSeller amount n d).db.accounts.insert 1
          ⟨{ accountID := 1, balance := 100 }, 1⟩).insert 9
        ⟨{ accountID := 9, balance := 100, numSubEntries := 1 }, 1⟩
      trustlines := (oneSeller amount n d).db.trustlines.insert (.trustLine 9 token)
        ⟨{ accountID := 9, asset := token, balance := 30, limit := 50, flags := 1 }, 1⟩ }
    mSourceAccount := some (AccountFrame.ofRow
      ⟨{ accountID := 9, balance := 100, numSubEntries := 1 }, 1⟩ false) }

/-- Sells the credit, at three for two. -/
def threeForTwo (amount : ℤ) : ManageOfferOp :=
  { selling := token, buying := .native, amount, price := ⟨3, 2⟩, offerID := 0 }

theorem coherent_oneBuyer (amount n d : ℤ) : Coherent (oneBuyer amount n d) :=
  fun _ _ hmem => absurd hmem List.not_mem_nil

theorem amounts_oneBuyer (amount n d : ℤ) : Amounts (oneBuyer amount n d) 9 := by
  refine ⟨fun f hf => ?_, fun asset row hrow => ?_⟩
  · obtain rfl := Option.some.inj hf
    decide
  · by_cases hasset : token = asset
    · subst hasset
      obtain rfl : (⟨{ accountID := 9, asset := token, balance := 30, limit := 50, flags := 1 },
          1⟩ : Row _) = row := by
        simpa [oneBuyer] using hrow
      decide
    · simp [oneBuyer, oneSeller, hasset] at hrow

theorem keyed_oneBuyer (amount n d : ℤ) : Keyed (oneBuyer amount n d).db := by
  intro id row hrow
  by_cases hid : 7 = id
  · subst hid
    have hsome : some (⟨(theOffer amount n d).mOffer, 1⟩ : Row _) = some row := by
      simpa [oneBuyer, oneSeller, theOffer] using hrow
    rw [← Option.some.inj hsome]
    rfl
  · simp [oneBuyer, oneSeller, hid] at hrow

theorem doCheckValid_threeForTwo :
    ∃ s₀ s₁, doCheckValid plainPrices (threeForTwo 10) s₀ = .ok () s₁ := by
  have hruns : returns (doCheckValid plainPrices (threeForTwo 10)) (fun _ _ => true) {} = true := by
    decide +kernel
  obtain ⟨_, s₁, hrun, -⟩ := exists_of_returns hruns
  exact ⟨_, s₁, hrun⟩

/-- One of ten is sold, and an offer of nine is left. -/
theorem doApply_within_limits_oneOfTen :
    ∃ claimed o t, doApply plainPrices 0 9 false (threeForTwo 10) (oneBuyer 2 2 3) =
        .ok (.MANAGE_OFFER_SUCCESS claimed (.MANAGE_OFFER_CREATED o)) t ∧
      (claimed.map (·.amountBought)).sum = 1 ∧ mostSheep (oneBuyer 2 2 3) 9 (threeForTwo 10) = 10 ∧
      (∀ a ∈ claimed, Trade plainPrices.computePrice (oneBuyer 2 2 3) 9 false (threeForTwo 10) a) ∧
      Stands t 9 (threeForTwo 10) 9 o := by
  have hruns : returns (doApply plainPrices 0 9 false (threeForTwo 10))
      (fun r _ => match r with
        | .MANAGE_OFFER_SUCCESS claimed (.MANAGE_OFFER_CREATED _) =>
          (claimed.map (·.amountBought)).sum = 1
        | _ => false) (oneBuyer 2 2 3) = true := by
    decide +kernel
  obtain ⟨r, t, hrun, hresult⟩ := exists_of_returns hruns
  clear hruns
  have hmost : mostSheep (oneBuyer 2 2 3) 9 (threeForTwo 10) = 10 := by decide +kernel
  have h := doApply_within_limits plainPrices 0 9 false (threeForTwo 10) (oneBuyer 2 2 3)
    doCheckValid_threeForTwo (by decide) (coherent_oneBuyer 2 2 3) (amounts_oneBuyer 2 2 3)
    (keyed_oneBuyer 2 2 3)
  obtain ⟨claimed, effect, rfl, htrades, hleaves⟩ := of_wp_ok h hrun
  cases effect with
  | MANAGE_OFFER_CREATED o =>
    have hsum : (claimed.map (·.amountBought)).sum = 1 := of_decide_eq_true hresult
    rw [hsum, hmost] at hleaves
    exact ⟨claimed, o, t, hrun, hsum, hmost, htrades, hleaves.2⟩
  | MANAGE_OFFER_UPDATED o => cases hresult
  | MANAGE_OFFER_DELETED => cases hresult

/-- One offer was crossed, and one was paid for one. -/
def isOneForOne : ManageOfferResult → Bool
  | .MANAGE_OFFER_SUCCESS [a] _ => a.amountSold = 1 ∧ a.amountBought = 1
  | _ => false

/-- Three were asked for two, and one is paid for one: what is due of the offer that is crossed is
rounded down. -/
theorem trade_below_asked_price :
    ∃ a t, (∃ s₀ s₁, doCheckValid plainPrices (threeForTwo 10) s₀ = .ok () s₁) ∧
      Coherent (oneBuyer 2 2 3) ∧ Amounts (oneBuyer 2 2 3) 9 ∧ Keyed (oneBuyer 2 2 3).db ∧
      (∃ effect, doApply plainPrices 0 9 false (threeForTwo 10) (oneBuyer 2 2 3) =
        .ok (.MANAGE_OFFER_SUCCESS [a] effect) t) ∧
      ¬ a.amountBought * (threeForTwo 10).price.n ≤ a.amountSold * (threeForTwo 10).price.d := by
  have hruns : returns (doApply plainPrices 0 9 false (threeForTwo 10))
      (fun r _ => isOneForOne r) (oneBuyer 2 2 3) = true := by
    decide +kernel
  obtain ⟨r, t, hrun, hresult⟩ := exists_of_returns hruns
  clear hruns
  unfold isOneForOne at hresult
  split at hresult
  · rename_i a effect
    obtain ⟨hsold, hbought⟩ : a.amountSold = 1 ∧ a.amountBought = 1 := of_decide_eq_true hresult
    refine ⟨a, t, doCheckValid_threeForTwo, coherent_oneBuyer 2 2 3, amounts_oneBuyer 2 2 3,
      keyed_oneBuyer 2 2 3, ⟨effect, hrun⟩, ?_⟩
    rw [hsold, hbought]
    decide
  · cases hresult

end SmartCore.Transactions.ManageOfferOpFrame
