import SmartCore.Transactions.CrossOffer

/-!
# Walking the book

`convertWithOffers` reads the book five offers at a time, from an offset on, while it deletes
offers from it. The offset counts the offers that were read and are still there, so that what comes
after it is what has not been read yet.

**Theorem (`convertWithOffers_walks`).** The offers that are given to the filter are the first ones
of the book as it was, each once and in order. The loop ends, whatever the book.
-/

namespace SmartCore.Transactions.OfferExchange

open SmartCore.Ledger SmartCore.Rounding

variable {app : Application} {s t u : LedgerState} {d : ℕ} {sheep wheat : Asset}
  {filter : OfferFrame → OfferFilterResult} {c : Conversion}

/-! ## What crossing does to the book -/

/-- The ways in which crossing fails. -/
def crossFaults : List Exit :=
  noSeller :: .exception "overflow while performing bigDivide" :: storeFaults

theorem mem_crossFaults {e : Exit} (h : e ∈ storeFaults) : e ∈ crossFaults :=
  List.mem_cons_of_mem _ (List.mem_cons_of_mem _ h)

/-- The table of offers is not written. -/
def KeepsOffers {α : Type} (x : LedgerM α) : Prop :=
  ∀ s, wp x (fun _ t => t.db.offers = s.db.offers) (fun e _ => e ∈ crossFaults) s

theorem KeepsOffers.bind {α β : Type} {x : LedgerM α} {f : α → LedgerM β} (hx : KeepsOffers x)
    (hf : ∀ a, KeepsOffers (f a)) : KeepsOffers (x >>= f) := by
  intro s
  rw [wp_bind]
  exact wp_mono (hx s) (fun a t ht => wp_mono (hf a t) (fun _ _ hu => hu.trans ht) fun _ _ h => h)
    fun _ _ h => h

theorem KeepsOffers.pure {α : Type} (a : α) : KeepsOffers (pure a : LedgerM α) := fun _ => rfl

theorem keepsOffers_loadTrustLine (id : AccountID) (asset : Asset) :
    KeepsOffers (TrustFrame.loadTrustLine d id asset) := fun _ =>
  wp_mono (TrustFrame.wp_loadTrustLine_faults d id asset) (fun _ _ ht => by rw [ht.2.db])
    fun _ _ => mem_crossFaults

theorem keepsOffers_loadAccount (id : AccountID) : KeepsOffers (AccountFrame.loadAccount d id) :=
  fun _ => wp_mono (AccountFrame.wp_loadAccount_faults d id) (fun _ _ ht => by rw [ht.2.db])
    fun _ _ => mem_crossFaults

theorem keepsOffers_bigDivide (A B C : ℤ) : KeepsOffers (bigDivide A B C) := by
  intro s
  rw [wp_bigDivide]
  exact ⟨fun _ => rfl, fun _ => by decide⟩

theorem keepsOffers_sellerMaxWheat (offer : OfferEntry) : KeepsOffers (sellerMaxWheat d offer) := by
  unfold sellerMaxWheat
  split_ifs
  · exact .pure _
  · exact (keepsOffers_loadTrustLine _ _).bind fun line =>
      (keepsOffers_bigDivide _ _ _).bind fun _ => .pure _

theorem keepsOffers_wheatCanSell (f : AccountFrame) (asset : Asset) (line : Option TrustFrame) :
    KeepsOffers (wheatCanSell f asset line) := by
  intro s
  simp only [wheatCanSell, wp_ite, AccountFrame.getBalanceAboveReserve, getMinBalance, wp_bind,
    wp_get, wp_pure]
  refine ⟨fun _ => trivial, fun _ => ?_⟩
  cases line with
  | none => exact rfl
  | some line =>
    simp only [wp_ite, TrustFrame.getBalance, assertion, wp_bind, wp_require, wp_pure]
    exact ⟨fun _ => ⟨fun _ => trivial, fun _ => by decide⟩, fun _ => trivial⟩

theorem keepsOffers_storeAccount (f : AccountFrame) : KeepsOffers (f.storeChange d) := fun _ =>
  wp_mono AccountFrame.wp_storeChange_row (fun _ _ ht => ht.1.offers)
    fun _ _ he => mem_crossFaults he.1

theorem keepsOffers_storeLine (f : TrustFrame) : KeepsOffers (f.storeChange d) := fun _ =>
  wp_mono TrustFrame.wp_storeChange_row (fun _ _ ht => ht.offers) fun _ _ => mem_crossFaults

theorem keepsOffers_adjust (f : AccountFrame) (asset : Asset) (line : Option TrustFrame)
    (amount : ℤ) : KeepsOffers (adjust d f asset line amount) := by
  unfold adjust
  split_ifs
  · exact .pure _
  · exact (keepsOffers_storeAccount _).bind fun _ => .pure _
  · intro s
    simp only [wp_bind, wp_deref]
    refine ⟨fun line _ => ?_, fun _ => by decide⟩
    cases line.addBalance amount with
    | none => exact rfl
    | some line => exact (keepsOffers_storeLine line).bind (fun _ => .pure _) s

/-- No offer is added, and none changes hands. -/
def Fewer (s t : LedgerState) : Prop :=
  ∀ (id : ℕ) (row : Row OfferEntry), t.db.offers[id]? = some row →
    ∃ row₀, s.db.offers[id]? = some row₀ ∧ row.entry.sellerID = row₀.entry.sellerID

theorem Fewer.refl (s : LedgerState) : Fewer s s := fun _ row hrow => ⟨row, hrow, rfl⟩

theorem Fewer.trans (h : Fewer s t) (h' : Fewer t u) : Fewer s u := by
  intro id row hrow
  obtain ⟨row₁, hrow₁, hseller₁⟩ := h' id row hrow
  obtain ⟨row₀, hrow₀, hseller₀⟩ := h id row₁ hrow₁
  exact ⟨row₀, hrow₀, hseller₁.trans hseller₀⟩

theorem fewer_of_eq (h : t.db.offers = s.db.offers) : Fewer s t := fun _ row hrow =>
  ⟨row, h ▸ hrow, rfl⟩

theorem fewer_of_erase {id : ℕ} (h : t.db.offers = s.db.offers.erase id) : Fewer s t := by
  intro id' row hrow
  rw [h, Std.ExtTreeMap.getElem?_erase] at hrow
  split_ifs at hrow
  exact ⟨row, hrow, rfl⟩

/-- What an offer was claimed for: not less than its price, and rounded by less than one. -/
structure Bargain (offer : OfferEntry) (a : ClaimOfferAtom) : Prop where
  offerID : a.offerID = offer.offerID
  assets : a.assetSold = offer.selling ∧ a.assetBought = offer.buying
  positive : 0 < offer.price.n ∧ 0 < offer.price.d
  amounts : 0 ≤ a.amountSold ∧ 0 ≤ a.amountBought
  price : a.amountSold * offer.price.n ≤ a.amountBought * offer.price.d
  rounded : a.amountBought * offer.price.d < (a.amountSold + 1) * offer.price.n

/-- What the loop sees of a crossing. -/
structure Step (s t : LedgerState) (offer : OfferEntry) (maxWheatReceived maxSheepSend : ℤ)
    (x : Crossed) : Prop where
  wheat : 0 ≤ x.numWheatReceived ∧ x.numWheatReceived ≤ maxWheatReceived
  sheep : 0 ≤ x.numSheepSend ∧ x.numSheepSend ≤ maxSheepSend
  taken : x.result = .eOfferTaken → t.db.offers = s.db.offers.erase offer.offerID
  trail : ∃ a, x.trail = [a] ∧ a.amountSold = x.numWheatReceived ∧
    a.amountBought = x.numSheepSend ∧ Bargain offer a

theorem wp_reduceOffer_erase {offer : OfferFrame} {f : AccountFrame} {offerTaken : Bool}
    {numWheatReceived : ℤ} :
    wp (reduceOffer d offer f offerTaken numWheatReceived)
      (fun _ t => Fewer s t ∧
        (offerTaken = true → t.db.offers = s.db.offers.erase offer.mOffer.offerID))
      (fun e _ => e ∈ crossFaults) s := by
  simp only [reduceOffer, wp_ite, wp_bind]
  refine ⟨fun _ => ?_, fun htaken => wp_mono OfferFrame.wp_storeChange_row
    (fun _ t ht => ⟨fun id row' hid => ?_, fun h => absurd h htaken⟩) fun _ _ => mem_crossFaults⟩
  swap
  · obtain ⟨-, row, lastmodified, hrow, hdb⟩ := ht
    by_cases hids : id = offer.mOffer.offerID
    · subst hids
      rw [hdb, Std.ExtTreeMap.getElem?_insert_self] at hid
      exact ⟨row, hrow, by rw [← Option.some.inj hid]⟩
    · rw [hdb] at hid
      rw [Table.getElem?_insert_of_ne id hids] at hid
      exact ⟨row', hid, rfl⟩
  refine wp_mono OfferFrame.wp_storeDelete_row (fun _ t ht => ?_) fun _ _ => mem_crossFaults
  simp only [AccountFrame.addNumEntries, wp_ite, wp_throw, wp_bind]
  refine ⟨fun _ => by decide, fun _ => ?_⟩
  simp only [getMinBalance, wp_bind, wp_get, wp_pure, wp_deref]
  refine ⟨fun _ => ⟨by simp, fun _ => by decide⟩, fun _ => ⟨fun f' _ => ?_, by simp⟩⟩
  refine wp_mono (keepsOffers_storeAccount f' t) (fun _ u hu => ?_) fun _ _ h => h
  have herase : u.db.offers = s.db.offers.erase offer.mOffer.offerID := by rw [hu, ht]
  exact ⟨fewer_of_erase herase, fun _ => herase⟩

theorem wp_settle_step (maxWheatReceived maxSheepSend : ℤ) {offer : OfferFrame} {f : AccountFrame}
    {sheepLine wheatLine : Option TrustFrame} {offerTaken : Bool} {w sh : ℤ}
    (hw : 0 ≤ w ∧ w ≤ maxWheatReceived) (hsh : 0 ≤ sh ∧ sh ≤ maxSheepSend)
    (hbargain : ∀ id, Bargain offer.mOffer ⟨id, offer.mOffer.offerID, offer.mOffer.selling, w,
      offer.mOffer.buying, sh⟩) :
    wp (settle d offer f sheepLine wheatLine offerTaken w sh)
      (fun x t => Fewer s t ∧ (x.result ≠ .eOfferCantConvert →
        Step s t offer.mOffer maxWheatReceived maxSheepSend x))
      (fun e _ => e ∈ crossFaults) s := by
  rw [settle, wp_bind]
  refine wp_mono wp_reduceOffer_erase (fun f₁ t ht => ?_) fun _ _ h => h
  obtain ⟨hfewer, ht⟩ := ht
  rw [wp_bind]
  refine wp_mono (keepsOffers_adjust f₁ _ _ _ t) (fun r u hu => ?_) fun _ _ h => h
  have hfewer := hfewer.trans (fewer_of_eq hu)
  cases r with
  | none => exact ⟨hfewer, fun h => absurd rfl h⟩
  | some f₂ =>
    simp only [wp_bind]
    refine wp_mono (keepsOffers_adjust f₂ _ _ _ u) (fun r v hv => ?_) fun _ _ h => h
    have hfewer := hfewer.trans (fewer_of_eq hv)
    cases r with
    | none => exact ⟨hfewer, fun h => absurd rfl h⟩
    | some f₃ =>
      refine ⟨hfewer, fun _ =>
        ⟨hw, hsh, fun htaken => ?_, _, rfl, rfl, rfl, hbargain f₃.getID⟩⟩
      have htrue : offerTaken = true := by
        cases offerTaken
        · cases htaken
        · rfl
      rw [hv, hu, ht htrue]

/-- The divisions assert that the price is positive. -/
theorem wp_trade_step {f : OfferFrame} {accountB : AccountFrame}
    {sheepLine wheatLine : Option TrustFrame} {amount maxWheatReceived maxSheepSend : ℤ} :
    wp (trade d f accountB sheepLine wheatLine amount maxWheatReceived maxSheepSend)
      (fun x t => Fewer s t ∧ (x.result ≠ .eOfferCantConvert →
        Step s t f.mOffer maxWheatReceived maxSheepSend x))
      (fun e _ => e ∈ crossFaults) s := by
  rw [trade, wp_bind, wp_bigDivide]
  refine ⟨fun hwheat => ?_, fun _ => by decide⟩
  rw [quotient_getD]
  change wp (bigDivideOrThrow (sheepFor f.mOffer (min amount maxWheatReceived) maxSheepSend)
    f.mOffer.price.d f.mOffer.price.n >>= _) _ _ _
  simp only [bigDivideOrThrow, wp_bind, wp_bigDivide]
  refine ⟨fun hsheep => ?_, fun _ => by decide⟩
  obtain ⟨hsheep, -, hn⟩ := hsheep
  obtain ⟨hwheat, -, hd⟩ := hwheat
  split_ifs with hfits
  · set sheep := sheepFor f.mOffer (min amount maxWheatReceived) maxSheepSend
    have hback : sheep * f.mOffer.price.d / f.mOffer.price.n ≤ min amount maxWheatReceived :=
      worth_back_le hn hd (sheepFor_le_worth _ _ _)
    have hmaxSheep : sheep ≤ maxSheepSend := min_le_right _ _
    have hstep : ∀ {w sh : ℤ} {offerTaken : Bool}, 0 ≤ w ∧ w ≤ maxWheatReceived →
        0 ≤ sh ∧ sh ≤ maxSheepSend → w * f.mOffer.price.n ≤ sh * f.mOffer.price.d →
        sh * f.mOffer.price.d < (w + 1) * f.mOffer.price.n →
        wp (settle d { f with mOffer := { f.mOffer with amount } } accountB sheepLine wheatLine
          offerTaken w sh)
          (fun x t => Fewer s t ∧ (x.result ≠ .eOfferCantConvert →
            Step s t f.mOffer maxWheatReceived maxSheepSend x))
          (fun e _ => e ∈ crossFaults) s := by
      intro w sh offerTaken hw hsh hprice hrounded
      refine wp_mono (wp_settle_step maxWheatReceived maxSheepSend hw hsh fun id =>
        ⟨rfl, ⟨rfl, rfl⟩, ⟨hn, hd⟩, ⟨hw.1, hsh.1⟩, hprice, hrounded⟩)
        (fun x t hx => ⟨hx.1, fun hne => ?_⟩) fun _ _ h => h
      obtain ⟨hw, hsh, htaken, a, htrail, hsold, hbought, hbargain⟩ := hx.2 hne
      exact ⟨hw, hsh, htaken, a, htrail, hsold, hbought, hbargain.1, hbargain.2, hbargain.3,
        hbargain.4, hbargain.5, hbargain.6⟩
    simp only [wp_pure, wp_ite]
    refine ⟨fun _ => ⟨.refl s, fun h => absurd rfl h⟩, fun _ => ?_⟩
    by_cases hnothing : sheep * f.mOffer.price.d / f.mOffer.price.n = 0 ∨ sheep = 0
    · have hif : ∀ x : ℤ, (if decide (sheep * f.mOffer.price.d / f.mOffer.price.n = 0 ∨
          min (min (min amount maxWheatReceived * f.mOffer.price.n / f.mOffer.price.d) INT64_MAX)
            maxSheepSend = 0) = true then 0 else x) = 0 := fun x =>
        if_pos (decide_eq_true hnothing)
      rw [hif, hif]
      exact hstep ⟨le_rfl, hwheat.trans (min_le_right _ _)⟩ ⟨le_rfl, hsheep.trans hmaxSheep⟩
        (by simp) (by simpa using hn)
    · have hif : ∀ x : ℤ, (if decide (sheep * f.mOffer.price.d / f.mOffer.price.n = 0 ∨
          min (min (min amount maxWheatReceived * f.mOffer.price.n / f.mOffer.price.d) INT64_MAX)
            maxSheepSend = 0) = true then 0 else x) = x := fun x =>
        if_neg (by rw [decide_eq_true_eq]; exact hnothing)
      rw [hif, hif]
      exact hstep ⟨worth_nonneg hsheep hd.le hn, hback.trans (min_le_right _ _)⟩
        ⟨hsheep, hmaxSheep⟩ (worth_mul_le _ _ hn) (lt_worth_add_one_mul _ _ hn)
  · exact List.mem_cons_of_mem _ List.mem_cons_self

/-- **A crossing, as the loop sees it.** -/
theorem wp_crossOffer_step (f : OfferFrame) (maxWheatReceived maxSheepSend : ℤ) :
    wp (crossOffer d f maxWheatReceived maxSheepSend)
      (fun x t => Fewer s t ∧ (x.result ≠ .eOfferCantConvert →
        Step s t f.mOffer maxWheatReceived maxSheepSend x))
      (fun e _ => e ∈ crossFaults) s := by
  have hloads : KeepsOffers (loadWheatLine d f.mOffer.sellerID f.mOffer.selling) := by
    unfold loadWheatLine
    split_ifs
    · exact .pure _
    · exact keepsOffers_loadTrustLine _ _
  rw [crossOffer_eq, wp_bind]
  refine wp_mono (wp_recordEntry d f.mEntry) (fun _ t₀ ht₀ => ?_) fun _ _ h => h
  rw [wp_bind]
  refine wp_mono (keepsOffers_loadAccount f.mOffer.sellerID t₀) (fun r t₁ ht₁ => ?_)
    fun _ _ h => h
  cases r with
  | none => exact List.mem_cons_self
  | some accountB =>
    simp only [wp_bind]
    refine wp_mono (hloads t₁) (fun wheatLine t₂ ht₂ => ?_) fun _ _ h => h
    refine wp_mono (keepsOffers_sellerMaxWheat f.mOffer t₂) (fun r t₃ ht₃ => ?_) fun _ _ h => h
    refine wp_mono (keepsOffers_wheatCanSell accountB _ wheatLine t₃) (fun canSell t₄ ht₄ => ?_)
      fun _ _ h => h
    have hsame : t₄.db.offers = s.db.offers := by rw [ht₄, ht₃, ht₂, ht₁, ht₀.db]
    refine wp_mono wp_trade_step (fun x u hx => ⟨(fewer_of_eq hsame).trans hx.1, fun hne => ?_⟩)
      fun _ _ h => h
    obtain ⟨hwheat, hsheep, htaken, htrail⟩ := hx.2 hne
    refine ⟨hwheat, hsheep, fun h => ?_, htrail⟩
    rw [htaken h, hsame]

/-! ## The book -/

/-- The number of an offer is the key of its row. -/
def Keyed (db : Database) : Prop :=
  ∀ (id : ℕ) (row : Row OfferEntry), db.offers[id]? = some row → row.entry.offerID = id

/-- The offers that sell `selling` for `buying`, as `loadBestOffers` orders them. -/
def book (computePrice : Price → ℤ) (db : Database) (selling buying : Asset) : List OfferFrame :=
  (OfferFrame.offersOf db selling buying).insertionSort (OfferFrame.better computePrice)

section Book

variable {computePrice : Price → ℤ} {db db' : Database} {selling buying : Asset} {o : OfferFrame}

instance : Std.Total (OfferFrame.better computePrice) where
  total a b := by
    unfold OfferFrame.better
    omega

instance : IsTrans OfferFrame (OfferFrame.better computePrice) where
  trans a b c := by
    unfold OfferFrame.better
    omega

theorem book_sorted (computePrice : Price → ℤ) (db : Database) (selling buying : Asset) :
    (book computePrice db selling buying).Pairwise (OfferFrame.better computePrice) :=
  List.pairwise_insertionSort _ _

theorem book_perm (computePrice : Price → ℤ) (db : Database) (selling buying : Asset) :
    (book computePrice db selling buying).Perm (OfferFrame.offersOf db selling buying) :=
  List.perm_insertionSort _ _

theorem mem_offersOf (h : Keyed db) : o ∈ OfferFrame.offersOf db selling buying ↔
    db.offers[o.mOffer.offerID]?.map OfferFrame.ofRow = some o ∧
      o.mOffer.selling = selling ∧ o.mOffer.buying = buying := by
  simp only [OfferFrame.offersOf, List.mem_filter, List.mem_map, Bool.decide_and, Bool.and_eq_true,
    decide_eq_true_eq, Prod.exists, Option.map_eq_some_iff]
  refine and_congr_left fun _ => ⟨fun hex => ?_, fun hex => ?_⟩
  · obtain ⟨id, row, hmem, rfl⟩ := hex
    rw [Std.ExtTreeMap.mem_toList_iff_getElem?_eq_some] at hmem
    refine ⟨row, ?_, rfl⟩
    show db.offers[row.entry.offerID]? = some row
    rw [h id row hmem]
    exact hmem
  · obtain ⟨row, hrow, hof⟩ := hex
    exact ⟨_, row, Std.ExtTreeMap.mem_toList_iff_getElem?_eq_some.mpr hrow, hof⟩

theorem mem_book (h : Keyed db) : o ∈ book computePrice db selling buying ↔
    db.offers[o.mOffer.offerID]?.map OfferFrame.ofRow = some o ∧
      o.mOffer.selling = selling ∧ o.mOffer.buying = buying :=
  (book_perm computePrice db selling buying).mem_iff.trans (mem_offersOf h)

/-- An offer is in the book once. -/
theorem nodup_offersOf (h : Keyed db) :
    ((OfferFrame.offersOf db selling buying).map (·.mOffer.offerID)).Nodup := by
  have hkeys : (db.offers.toList.map fun row => (OfferFrame.ofRow row.2).mOffer.offerID).Nodup := by
    refine List.pairwise_map.mpr ?_
    refine db.offers.distinct_keys_toList.imp_of_mem fun {a b} ha hb hne heq => hne ?_
    rw [Std.ExtTreeMap.mem_toList_iff_getElem?_eq_some] at ha hb
    rw [compare_eq_iff_eq, ← h _ _ ha, ← h _ _ hb]
    exact heq
  have hmap : (db.offers.toList.map fun row => (OfferFrame.ofRow row.2).mOffer.offerID) =
      (db.offers.toList.map fun row => OfferFrame.ofRow row.2).map (·.mOffer.offerID) := by
    rw [List.map_map]
    rfl
  rw [hmap] at hkeys
  exact hkeys.sublist (List.filter_sublist.map _)

theorem nodup_book (h : Keyed db) (computePrice : Price → ℤ) (selling buying : Asset) :
    ((book computePrice db selling buying).map (·.mOffer.offerID)).Nodup :=
  ((book_perm computePrice db selling buying).map _).nodup_iff.mpr (nodup_offersOf h)

theorem Keyed.erase (h : Keyed db) {id : ℕ} (herase : db'.offers = db.offers.erase id) :
    Keyed db' := by
  intro id' row hrow
  rw [herase, Std.ExtTreeMap.getElem?_erase] at hrow
  split_ifs at hrow
  exact h id' row hrow

/-- **Deleting an offer** takes it out of the book, and leaves the others in order. -/
theorem book_erase (h : Keyed db) {id : ℕ} (herase : db'.offers = db.offers.erase id) :
    book computePrice db' selling buying =
      (book computePrice db selling buying).filter fun o => o.mOffer.offerID ≠ id := by
  have hkeyed' := h.erase herase
  refine List.Perm.eq_of_pairwise (fun a b ha hb hab hba => ?_)
    (book_sorted computePrice db' selling buying)
    ((book_sorted computePrice db selling buying).filter _) ?_
  · -- neither is before the other only if they have the same number
    have hids : a.mOffer.offerID = b.mOffer.offerID := by
      unfold OfferFrame.better at hab hba
      omega
    have ha := (mem_book hkeyed').mp ha
    have hb := (mem_book h).mp (List.mem_of_mem_filter hb)
    have hne : id ≠ a.mOffer.offerID := by
      rintro rfl
      rw [herase] at ha
      simp at ha
    rw [herase, Table.getElem?_erase_of_ne _ hne.symm, hids] at ha
    exact Option.some.inj (ha.1.symm.trans hb.1)
  · refine (List.perm_ext_iff_of_nodup (.of_map _ (nodup_book hkeyed' _ _ _))
      ((List.Nodup.of_map _ (nodup_book h _ _ _)).filter _)).mpr fun o => ?_
    rw [mem_book hkeyed', List.mem_filter, mem_book h, herase, decide_eq_true_eq]
    by_cases hid : o.mOffer.offerID = id
    · subst hid
      simp
    · rw [Table.getElem?_erase_of_ne _ hid]
      simp [hid]

theorem length_book_le (computePrice : Price → ℤ) (db : Database) (selling buying : Asset) :
    (book computePrice db selling buying).length ≤ db.offers.size := by
  rw [(book_perm _ _ _ _).length_eq, ← Std.ExtTreeMap.length_toList]
  exact (List.length_filter_le _ _).trans (List.length_map _).le

end Book

/-! ## The loop over a batch -/

/-- The offers of a batch that are given to the filter. -/
def offeredIn (d : ℕ) (filter : OfferFrame → OfferFilterResult) :
    List OfferFrame → Conversion → LedgerState → List OfferFrame
  | [], _, _ => []
  | wheatOffer :: retList, c, s =>
    wheatOffer ::
      match filter wheatOffer with
      | .eStop _ => []
      | .eSkip => offeredIn d filter retList c s
      | .eKeep =>
        match crossOffer d wheatOffer c.maxWheatReceive c.maxSheepSend s with
        | .error _ _ => []
        | .ok x t =>
          if x.result = .eOfferTaken ∧ (c.add x).needMore then
            offeredIn d filter retList (c.add x) t
          else []

theorem offeredIn_isPrefix (d : ℕ) (filter : OfferFrame → OfferFilterResult)
    (retList : List OfferFrame) (c : Conversion) (s : LedgerState) :
    offeredIn d filter retList c s <+: retList := by
  induction retList generalizing c s with
  | nil => exact List.prefix_rfl
  | cons wheatOffer retList ih =>
    refine (List.prefix_cons_inj _).mpr ?_
    split
    · exact List.nil_prefix
    · exact ih c s
    · split
      · exact List.nil_prefix
      · split_ifs
        · exact ih _ _
        · exact List.nil_prefix

/-- The totals are the sums over the trail, and what they leave of the maxima. -/
structure Conversion.Adds (maxSheepSend maxWheatReceive : ℤ) (c : Conversion) : Prop where
  sheepSend : c.sheepSend = (c.mOfferTrail.map (·.amountBought)).sum
  wheatReceived : c.wheatReceived = (c.mOfferTrail.map (·.amountSold)).sum
  sheepLeft : c.maxSheepSend = maxSheepSend - c.sheepSend
  wheatLeft : c.maxWheatReceive = maxWheatReceive - c.wheatReceived
  sheepNonneg : 0 ≤ c.sheepSend ∧ (0 ≤ maxSheepSend → 0 ≤ c.maxSheepSend)
  wheatNonneg : 0 ≤ c.wheatReceived ∧ (0 ≤ maxWheatReceive → 0 ≤ c.maxWheatReceive)

theorem Conversion.Adds.add {maxSheepSend maxWheatReceive : ℤ} {x : Crossed} {offer : OfferEntry}
    (h : c.Adds maxSheepSend maxWheatReceive) (hsheep : maxSheepSend ≤ INT64_MAX)
    (hwheat : maxWheatReceive ≤ INT64_MAX)
    (hstep : Step s t offer c.maxWheatReceive c.maxSheepSend x) :
    (c.add x).Adds maxSheepSend maxWheatReceive := by
  obtain ⟨a, htrail, hsold, hbought, -⟩ := hstep.trail
  obtain ⟨hw, hwle⟩ := hstep.wheat
  obtain ⟨hs, hsle⟩ := hstep.sheep
  have hmin : INT64_MIN ≤ 0 := by decide
  have hsheepLeft := h.sheepLeft
  have hwheatLeft := h.wheatLeft
  have hsheepNonneg := h.sheepNonneg.1
  have hwheatNonneg := h.wheatNonneg.1
  have h₁ : int64 (c.sheepSend + x.numSheepSend) = c.sheepSend + x.numSheepSend :=
    int64_of_inRange ⟨by omega, by omega⟩
  have h₂ : int64 (c.wheatReceived + x.numWheatReceived) = c.wheatReceived + x.numWheatReceived :=
    int64_of_inRange ⟨by omega, by omega⟩
  have h₃ : int64 (c.maxSheepSend - x.numSheepSend) = c.maxSheepSend - x.numSheepSend :=
    int64_of_inRange ⟨by omega, by omega⟩
  have h₄ : int64 (c.maxWheatReceive - x.numWheatReceived) =
      c.maxWheatReceive - x.numWheatReceived := int64_of_inRange ⟨by omega, by omega⟩
  have hadd : c.add x =
      { sheepSend := c.sheepSend + x.numSheepSend
        wheatReceived := c.wheatReceived + x.numWheatReceived
        maxSheepSend := c.maxSheepSend - x.numSheepSend
        maxWheatReceive := c.maxWheatReceive - x.numWheatReceived
        offerOffset := (c.add x).offerOffset
        mOfferTrail := c.mOfferTrail ++ x.trail } := by
    simp only [Conversion.add, h₁, h₂, h₃, h₄]
  rw [hadd]
  refine ⟨?_, ?_, by dsimp only; omega, by dsimp only; omega, ⟨by dsimp only; omega, fun _ => ?_⟩,
    by dsimp only; omega, fun _ => ?_⟩
  · rw [htrail, h.sheepSend]
    simp [hbought]
  · rw [htrail, h.wheatReceived]
    simp [hsold]
  · dsimp only
    omega
  · dsimp only
    omega

/-- Where the loop over a batch is in the book: `before` were skipped, and `after` come later. -/
structure Place (computePrice : Price → ℤ) (db : Database) (wheat sheep : Asset)
    (retList after : List OfferFrame) (offerOffset : ℕ) : Prop where
  keyed : Keyed db
  book : ∃ before, book computePrice db wheat sheep = before ++ retList ++ after ∧
    offerOffset = before.length + retList.length

theorem Place.skip {computePrice : Price → ℤ} {db : Database} {wheatOffer : OfferFrame}
    {retList after : List OfferFrame} {offerOffset : ℕ}
    (h : Place computePrice db wheat sheep (wheatOffer :: retList) after offerOffset) :
    Place computePrice db wheat sheep retList after offerOffset := by
  obtain ⟨before, hbook, hoffset⟩ := h.book
  refine ⟨h.keyed, before ++ [wheatOffer], ?_, ?_⟩
  · rw [hbook]
    simp
  · rw [hoffset]
    simp
    omega

theorem Place.taken {computePrice : Price → ℤ} {db db' : Database} {wheatOffer : OfferFrame}
    {retList after : List OfferFrame} {offerOffset : ℕ}
    (h : Place computePrice db wheat sheep (wheatOffer :: retList) after offerOffset)
    (herase : db'.offers = db.offers.erase wheatOffer.mOffer.offerID) :
    Place computePrice db' wheat sheep retList after (offerOffset - 1) := by
  obtain ⟨before, hbook, hoffset⟩ := h.book
  refine ⟨h.keyed.erase herase, before, ?_, ?_⟩
  · have hnodup := nodup_book h.keyed computePrice wheat sheep
    rw [hbook, List.append_assoc, List.cons_append] at hnodup
    have hcons :=
      (List.perm_middle.map (fun o : OfferFrame => o.mOffer.offerID)).nodup_iff.mp hnodup
    obtain ⟨hother, -⟩ := List.nodup_cons.mp hcons
    rw [book_erase h.keyed herase, hbook, List.append_assoc, List.cons_append, List.filter_append,
      List.filter_cons_of_neg (by simp), ← List.filter_append, List.append_assoc]
    refine List.filter_eq_self.mpr fun o ho => decide_eq_true fun hid => hother ?_
    exact List.mem_map.mpr ⟨o, ho, hid⟩
  · rw [hoffset]
    simp

/-- Each trade of the trail is one of before, or a bargain with an offer that the filter keeps. -/
def Bargains (filter : OfferFrame → OfferFilterResult) (offers : List OfferFrame)
    (before after : List ClaimOfferAtom) : Prop :=
  ∀ a ∈ after, a ∈ before ∨ ∃ o ∈ offers, filter o = .eKeep ∧ Bargain o.mOffer a

theorem Bargains.refl (filter : OfferFrame → OfferFilterResult) (offers : List OfferFrame)
    (trail : List ClaimOfferAtom) : Bargains filter offers trail trail := fun _ ha => Or.inl ha

theorem Bargains.trans {offers offers' : List OfferFrame} {l₁ l₂ l₃ : List ClaimOfferAtom}
    (h : Bargains filter offers l₁ l₂) (h' : Bargains filter offers' l₂ l₃) :
    Bargains filter (offers ++ offers') l₁ l₃ := by
  intro a ha
  rcases h' a ha with hmem | ⟨o, ho, hkeep⟩
  · rcases h a hmem with hmem | ⟨o, ho, hkeep⟩
    · exact Or.inl hmem
    · exact Or.inr ⟨o, List.mem_append_left _ ho, hkeep⟩
  · exact Or.inr ⟨o, List.mem_append_right _ ho, hkeep⟩

theorem Bargains.mono {offers offers' : List OfferFrame} {l₁ l₂ : List ClaimOfferAtom}
    (h : Bargains filter offers l₁ l₂) (hsub : offers ⊆ offers') :
    Bargains filter offers' l₁ l₂ := by
  intro a ha
  exact (h a ha).imp_right fun ⟨o, ho, hkeep⟩ => ⟨o, hsub ho, hkeep⟩

/-- One offer is crossed. -/
theorem Step.bargains {offer : OfferFrame} {maxWheatReceived maxSheepSend : ℤ} {x : Crossed}
    (h : Step s t offer.mOffer maxWheatReceived maxSheepSend x) (hkeep : filter offer = .eKeep)
    (c : Conversion) : Bargains filter [offer] c.mOfferTrail (c.add x).mOfferTrail := by
  intro a ha
  obtain ⟨b, htrail, -, -, hbargain⟩ := h.trail
  rcases List.mem_append.mp ha with hmem | hmem
  · exact Or.inl hmem
  · rw [htrail, List.mem_singleton] at hmem
    exact Or.inr ⟨offer, List.mem_singleton_self _, hkeep, hmem ▸ hbargain⟩

/-- **The loop over a batch.** If it comes to its end, then every offer was given to the filter, and
the offset is where the next batch begins. -/
theorem wp_crossOffers (d : ℕ) (filter : OfferFrame → OfferFilterResult)
    {computePrice : Price → ℤ} {maxSheepSend maxWheatReceive : ℤ}
    (hsheep : maxSheepSend ≤ INT64_MAX) (hwheat : maxWheatReceive ≤ INT64_MAX)
    {retList after : List OfferFrame}
    (hplace : Place computePrice s.db wheat sheep retList after c.offerOffset)
    (hadds : c.Adds maxSheepSend maxWheatReceive) :
    wp (crossOffers d filter retList c)
      (fun r u => (r.2.Adds maxSheepSend maxWheatReceive ∧
          Bargains filter retList c.mOfferTrail r.2.mOfferTrail ∧ Fewer s u) ∧
        (r.1 = some .eOK → ¬ r.2.needMore) ∧
        (r.1 = none → offeredIn d filter retList c s = retList ∧
          Place computePrice u.db wheat sheep [] after r.2.offerOffset))
      (fun e _ => e ∈ crossFaults) s := by
  induction retList generalizing c s with
  | nil => exact ⟨⟨hadds, .refl _ _ _, .refl s⟩, nofun, fun _ => ⟨rfl, hplace⟩⟩
  | cons wheatOffer retList ih =>
    cases hfilter : filter wheatOffer with
    | eStop crossSelf =>
      simp only [crossOffers, hfilter]
      exact ⟨⟨hadds, .refl _ _ _, .refl s⟩, nofun, nofun⟩
    | eSkip =>
      simp only [crossOffers, offeredIn, hfilter]
      refine wp_mono (ih hplace.skip hadds) (fun r u hr => ⟨⟨hr.1.1, hr.1.2.1.mono
        (List.subset_cons_self _ _), hr.1.2.2⟩, hr.2.1, fun hnone => ?_⟩) fun _ _ h => h
      obtain ⟨hall, hplace⟩ := hr.2.2 hnone
      exact ⟨by rw [hall], hplace⟩
    | eKeep =>
      have hcross := wp_crossOffer_step (s := s) (d := d) wheatOffer c.maxWheatReceive
        c.maxSheepSend
      simp only [crossOffers, offeredIn, hfilter]
      cases hx : crossOffer d wheatOffer c.maxWheatReceive c.maxSheepSend s with
      | error e t =>
        rw [wp, bind_of_error hx]
        rw [wp, hx] at hcross
        exact hcross
      | ok x t =>
        obtain ⟨hfewer, hstep⟩ := of_wp_ok hcross hx
        rw [wp_bind_of_ok hx]
        simp only [wp_ite, wp_pure]
        refine ⟨fun _ => ⟨⟨hadds, .refl _ _ _, hfewer⟩, nofun, nofun⟩, fun hconverts => ?_⟩
        have hadds := hadds.add hsheep hwheat (hstep hconverts)
        have hbargain := (hstep hconverts).bargains hfilter c
        have hbargains := hbargain.mono
          (List.cons_subset_cons wheatOffer (List.nil_subset retList))
        refine ⟨fun hmore => ⟨⟨hadds, hbargains, hfewer⟩, fun _ => hmore, nofun⟩, fun hmore =>
          ⟨fun _ => ⟨⟨hadds, hbargains, hfewer⟩, nofun, nofun⟩, fun hpartial => ?_⟩⟩
        have htaken : x.result = .eOfferTaken := by
          cases hresult : x.result with
          | eOfferTaken => rfl
          | eOfferPartial => exact absurd hresult hpartial
          | eOfferCantConvert => exact absurd hresult hconverts
        have hoffset : (c.add x).offerOffset = c.offerOffset - 1 := if_pos htaken
        have hplace := hplace.taken ((hstep hconverts).taken htaken)
        rw [← hoffset] at hplace
        rw [if_pos ⟨htaken, not_not.mp hmore⟩]
        refine wp_mono (ih hplace hadds) (fun r u hr => ⟨⟨hr.1.1, hbargain.trans hr.1.2.1,
          hfewer.trans hr.1.2.2⟩, hr.2.1, fun hnone => ?_⟩) fun _ _ h => h
        obtain ⟨hall, hplace⟩ := hr.2.2 hnone
        exact ⟨by rw [hall], hplace⟩

/-! ## The loop over batches -/

/-- The batch that is loaded. -/
def batch (app : Application) (c : Conversion) (wheat sheep : Asset) : LedgerM (List OfferFrame) :=
  OfferFrame.loadBestOffers app.computePrice 5 c.offerOffset wheat sheep

/-- The loop of `convertWithOffers` as the source has it, without a bound on the number of batches:
it ends with the result, and `offered` are the offers that it gives to the filter. -/
inductive Loop (app : Application) (d : ℕ) (sheep wheat : Asset)
    (filter : OfferFrame → OfferFilterResult) : Conversion → LedgerState → List OfferFrame →
    EStateM.Result Exit LedgerState (ConvertResult × Conversion) → Prop where
  | done {c : Conversion} {s : LedgerState} (h : ¬ c.needMore) :
    Loop app d sheep wheat filter c s [] (.ok (.eOK, c) s)
  /-- the batch cannot be loaded -/
  | unreadable {c : Conversion} {s t : LedgerState} {e : Exit} (h : c.needMore)
    (hload : batch app c wheat sheep s = .error e t) :
    Loop app d sheep wheat filter c s [] (.error e t)
  /-- an exception while an offer is crossed -/
  | thrown {c : Conversion} {s t u : LedgerState} {e : Exit} {retList : List OfferFrame}
    (h : c.needMore) (hload : batch app c wheat sheep s = .ok retList t)
    (hcross : crossOffers d filter retList
      { c with offerOffset := c.offerOffset + retList.length } t = .error e u) :
    Loop app d sheep wheat filter c s
      (offeredIn d filter retList { c with offerOffset := c.offerOffset + retList.length } t)
      (.error e u)
  /-- the loop over the batch returns -/
  | returned {c c' : Conversion} {s t u : LedgerState} {r : ConvertResult}
    {retList : List OfferFrame} (h : c.needMore)
    (hload : batch app c wheat sheep s = .ok retList t)
    (hcross : crossOffers d filter retList
      { c with offerOffset := c.offerOffset + retList.length } t = .ok (some r, c') u) :
    Loop app d sheep wheat filter c s
      (offeredIn d filter retList { c with offerOffset := c.offerOffset + retList.length } t)
      (.ok (r, c') u)
  /-- still stuff to fill but no more offers -/
  | last {c c' : Conversion} {s t u : LedgerState} {retList : List OfferFrame} (h : c.needMore)
    (hload : batch app c wheat sheep s = .ok retList t)
    (hcross : crossOffers d filter retList
      { c with offerOffset := c.offerOffset + retList.length } t = .ok (none, c') u)
    (hlast : c'.needMore ∧ retList.length < 5) :
    Loop app d sheep wheat filter c s
      (offeredIn d filter retList { c with offerOffset := c.offerOffset + retList.length } t)
      (.ok (.eOK, c') u)
  | next {c c' : Conversion} {s t u : LedgerState} {retList offered : List OfferFrame}
    {result : EStateM.Result Exit LedgerState (ConvertResult × Conversion)} (h : c.needMore)
    (hload : batch app c wheat sheep s = .ok retList t)
    (hcross : crossOffers d filter retList
      { c with offerOffset := c.offerOffset + retList.length } t = .ok (none, c') u)
    (hnext : ¬ (c'.needMore ∧ retList.length < 5))
    (hloop : Loop app d sheep wheat filter c' u offered result) :
    Loop app d sheep wheat filter c s
      (offeredIn d filter retList { c with offerOffset := c.offerOffset + retList.length } t ++
        offered)
      result

/-- A batch is the next five offers of the book. -/
theorem batch_eq_error {e : Exit} (h : batch app c wheat sheep s = .error e t) :
    e ∈ crossFaults := by
  have hwp : wp (batch app c wheat sheep) (fun _ _ => True) (fun e _ => e ∈ crossFaults) s := by
    simp only [batch, OfferFrame.loadBestOffers, wp_bind, wp_get, wp_ite, wp_throw, wp_pure]
    exact ⟨fun _ => by decide, fun _ => trivial⟩
  rw [wp, h] at hwp
  exact hwp

theorem batch_eq_ok {retList : List OfferFrame} (h : batch app c wheat sheep s = .ok retList t) :
    t = s ∧ retList = ((book app.computePrice s.db wheat sheep).drop c.offerOffset).take 5 := by
  have hwp : wp (batch app c wheat sheep) (fun r t => t = s ∧
      r = ((book app.computePrice s.db wheat sheep).drop c.offerOffset).take 5)
      (fun _ _ => True) s := by
    simp only [batch, OfferFrame.loadBestOffers, wp_bind, wp_get, wp_ite, wp_throw, wp_pure]
    exact ⟨fun _ => trivial, fun _ => ⟨trivial, rfl⟩⟩
  have hbatch := of_wp_ok hwp h
  exact hbatch

theorem convertBatches_done (n : ℕ) (h : ¬ c.needMore) :
    convertBatches app d sheep wheat filter n c s = .ok (.eOK, c) s := by
  cases n with
  | zero => rfl
  | succ n =>
    rw [convertBatches, if_pos h]
    rfl

theorem convertBatches_succ (n : ℕ) (h : c.needMore) :
    convertBatches app d sheep wheat filter (n + 1) c = (do
      let retList ← batch app c wheat sheep
      match ← crossOffers d filter retList
          { c with offerOffset := c.offerOffset + retList.length } with
      | (some r, c') => return (r, c')
      | (none, c') =>
        if c'.needMore ∧ retList.length < 5 then return (.eOK, c')
        else convertBatches app d sheep wheat filter n c') := by
  rw [convertBatches, if_neg (not_not.mpr h)]
  rfl

/-- What the loop has to say about the offers that are still to come. -/
structure Walked (maxSheepSend maxWheatReceive : ℤ) (filter : OfferFrame → OfferFilterResult)
    (rest offered : List OfferFrame) (c : Conversion) (s : LedgerState)
    (result : EStateM.Result Exit LedgerState (ConvertResult × Conversion)) : Prop where
  isPrefix : offered <+: rest
  returns : ∀ r c' t, result = .ok (r, c') t →
    (c'.Adds maxSheepSend maxWheatReceive ∧ Bargains filter rest c.mOfferTrail c'.mOfferTrail ∧
        Fewer s t) ∧
      (r = .eOK → c'.needMore → offered = rest)
  throws : ∀ e t, result = .error e t → e ∈ crossFaults

section Walked

variable {maxSheepSend maxWheatReceive : ℤ} {rest offered : List OfferFrame} {c' : Conversion}

theorem Walked.error {e : Exit} (h : offered <+: rest) (he : e ∈ crossFaults) :
    Walked maxSheepSend maxWheatReceive filter rest offered c s (.error e t) := by
  refine ⟨h, fun r c' u heq => ?_, fun e' u heq => ?_⟩
  · cases heq
  · cases heq
    exact he

theorem Walked.ok {r : ConvertResult} (h : offered <+: rest)
    (hadds : c'.Adds maxSheepSend maxWheatReceive)
    (hbargains : Bargains filter rest c.mOfferTrail c'.mOfferTrail) (hfewer : Fewer s t)
    (hall : r = .eOK → c'.needMore → offered = rest) :
    Walked maxSheepSend maxWheatReceive filter rest offered c s (.ok (r, c') t) := by
  refine ⟨h, fun r' c'' u heq => ?_, fun e u heq => ?_⟩
  · cases heq
    exact ⟨⟨hadds, hbargains, hfewer⟩, hall⟩
  · cases heq

end Walked

/-- **The loop ends**, if there are at least as many batches as offers. -/
theorem convertBatches_loop (app : Application) (d : ℕ) (sheep wheat : Asset)
    (filter : OfferFrame → OfferFilterResult) {maxSheepSend maxWheatReceive : ℤ}
    (hsheep : maxSheepSend ≤ INT64_MAX) (hwheat : maxWheatReceive ≤ INT64_MAX) (n : ℕ)
    {before rest : List OfferFrame} (hkeyed : Keyed s.db)
    (hbook : book app.computePrice s.db wheat sheep = before ++ rest)
    (hoffset : c.offerOffset = before.length) (hn : rest.length < n)
    (hadds : c.Adds maxSheepSend maxWheatReceive) :
    ∃ offered, Loop app d sheep wheat filter c s offered
      (convertBatches app d sheep wheat filter n c s) ∧
        Walked maxSheepSend maxWheatReceive filter rest offered c s
          (convertBatches app d sheep wheat filter n c s) := by
  induction n generalizing c s before rest with
  | zero => exact absurd hn (Nat.not_lt_zero _)
  | succ n ih =>
    by_cases hmore : c.needMore
    swap
    · rw [convertBatches_done (n + 1) hmore]
      exact ⟨[], .done hmore, .ok List.nil_prefix hadds (.refl _ _ _) (.refl s)
        fun _ h => absurd h hmore⟩
    rw [convertBatches_succ n hmore]
    cases hload : batch app c wheat sheep s with
    | error e t =>
      rw [bind_of_error hload]
      exact ⟨[], .unreadable hmore hload, .error List.nil_prefix (batch_eq_error hload)⟩
    | ok retList t =>
      obtain ⟨rfl, hret⟩ := batch_eq_ok hload
      rw [bind_of_ok hload]
      rw [hbook, hoffset, List.drop_left] at hret
      have hplace : Place app.computePrice t.db wheat sheep retList (rest.drop 5)
          (c.offerOffset + retList.length) := by
        refine ⟨hkeyed, before, ?_, by rw [hoffset]⟩
        rw [hbook, hret, List.append_assoc, List.take_append_drop]
      have hadds' : ({ c with offerOffset := c.offerOffset + retList.length } : Conversion).Adds
          maxSheepSend maxWheatReceive :=
        ⟨hadds.1, hadds.2, hadds.3, hadds.4, hadds.5, hadds.6⟩
      have hbatch := wp_crossOffers d filter hsheep hwheat hplace hadds'
      have hprefix : offeredIn d filter retList
          { c with offerOffset := c.offerOffset + retList.length } t <+: rest :=
        (offeredIn_isPrefix _ _ _ _ _).trans (hret ▸ List.take_prefix 5 rest)
      cases hcross : crossOffers d filter retList
          { c with offerOffset := c.offerOffset + retList.length } t with
      | error e u =>
        rw [bind_of_error hcross]
        rw [wp, hcross] at hbatch
        exact ⟨_, .thrown hmore hload hcross, .error hprefix hbatch⟩
      | ok r u =>
        obtain ⟨r, c'⟩ := r
        obtain ⟨⟨hadds', hbargain, hfewer⟩, hfull, hend⟩ := of_wp_ok hbatch hcross
        have hbargains : Bargains filter rest c.mOfferTrail c'.mOfferTrail :=
          hbargain.mono (hret ▸ List.take_subset 5 rest)
        rw [bind_of_ok hcross]
        cases r with
        | some r =>
          exact ⟨_, .returned hmore hload hcross, .ok hprefix hadds' hbargains hfewer
            fun hok hneed => absurd hneed (hfull (congrArg some hok))⟩
        | none =>
          obtain ⟨hall, hkeyed', before', hbook', hoffset'⟩ := hend rfl
          rw [List.append_nil] at hbook'
          show ∃ offered, Loop app d sheep wheat filter c t offered
            ((if c'.needMore ∧ retList.length < 5 then pure (.eOK, c')
              else convertBatches app d sheep wheat filter n c' : LedgerM _) u) ∧
              Walked maxSheepSend maxWheatReceive filter rest offered c t
                ((if c'.needMore ∧ retList.length < 5 then pure (.eOK, c')
                  else convertBatches app d sheep wheat filter n c' : LedgerM _) u)
          by_cases hlast : c'.needMore ∧ retList.length < 5
          · -- the batch was not full, so there is nothing after it
            have hrest : retList = rest := by
              have hlength := hlast.2
              rw [hret, List.length_take] at hlength
              rw [hret, List.take_of_length_le (by omega)]
            rw [if_pos hlast]
            exact ⟨_, .last hmore hload hcross hlast, .ok hprefix hadds' hbargains hfewer
              fun _ _ => hall.trans hrest⟩
          · rw [if_neg hlast]
            by_cases hmore' : c'.needMore
            · have hfive : 5 ≤ rest.length := by
                have hlength := not_lt.mp fun h => hlast ⟨hmore', h⟩
                rw [hret, List.length_take] at hlength
                omega
              obtain ⟨offered, hloop, hwalked⟩ := ih hkeyed' hbook' hoffset'
                (by rw [List.length_drop]; omega) hadds'
              have htake : ∀ l, retList ++ l = rest.take 5 ++ l := fun l => by rw [hret]
              refine ⟨_, .next hmore hload hcross hlast hloop, ?_, fun r c'' t' heq => ?_,
                hwalked.throws⟩
              · rw [hall, htake]
                conv_rhs => rw [← List.take_append_drop 5 rest]
                exact (List.prefix_append_right_inj _).mpr hwalked.isPrefix
              · obtain ⟨⟨hadds'', hbargain', hfewer'⟩, hfinal⟩ := hwalked.returns r c'' t' heq
                refine ⟨⟨hadds'', ?_, hfewer.trans hfewer'⟩, fun hok hneed => ?_⟩
                · have hboth := hbargain.trans hbargain'
                  rw [htake, List.take_append_drop] at hboth
                  exact hboth
                rw [hall, htake, hfinal hok hneed, List.take_append_drop]
            · rw [convertBatches_done n hmore']
              refine ⟨_, .next hmore hload hcross hlast (.done hmore'), .ok ?_ hadds' hbargains
                hfewer fun _ h => absurd h hmore'⟩
              rw [List.append_nil]
              exact hprefix

/-- `convertWithOffers` walks the book from its beginning. -/
theorem convertWithOffers_walked (app : Application) (d : ℕ) (sheep wheat : Asset)
    {maxSheepSend maxWheatReceive : ℤ} (filter : OfferFrame → OfferFilterResult)
    (hkeyed : Keyed s.db) (hsheep : maxSheepSend ≤ INT64_MAX)
    (hwheat : maxWheatReceive ≤ INT64_MAX) :
    ∃ offered, Loop app d sheep wheat filter { maxSheepSend, maxWheatReceive } s offered
        (convertWithOffers app d sheep maxSheepSend wheat maxWheatReceive filter s) ∧
      Walked maxSheepSend maxWheatReceive filter (book app.computePrice s.db wheat sheep) offered
        { maxSheepSend, maxWheatReceive } s
        (convertWithOffers app d sheep maxSheepSend wheat maxWheatReceive filter s) := by
  have hstart : ({ maxSheepSend, maxWheatReceive } : Conversion).Adds maxSheepSend
      maxWheatReceive :=
    ⟨rfl, rfl, (sub_zero _).symm, (sub_zero _).symm, ⟨le_rfl, fun h => h⟩, le_rfl, fun h => h⟩
  have hlength := length_book_le app.computePrice s.db wheat sheep
  exact convertBatches_loop app d sheep wheat filter hsheep hwheat (s.db.offers.size + 1) hkeyed
    (List.nil_append _).symm rfl (by omega) hstart

/-- What a caller sees of it. -/
theorem wp_convertWithOffers (app : Application) (d : ℕ) (sheep wheat : Asset)
    {maxSheepSend maxWheatReceive : ℤ} (filter : OfferFrame → OfferFilterResult)
    (hkeyed : Keyed s.db) (hsheep : maxSheepSend ≤ INT64_MAX)
    (hwheat : maxWheatReceive ≤ INT64_MAX) :
    wp (convertWithOffers app d sheep maxSheepSend wheat maxWheatReceive filter)
      (fun r t => r.2.Adds maxSheepSend maxWheatReceive ∧
        Bargains filter (book app.computePrice s.db wheat sheep) [] r.2.mOfferTrail ∧ Fewer s t)
      (fun e _ => e ∈ crossFaults) s := by
  obtain ⟨offered, -, hwalked⟩ :=
    convertWithOffers_walked app d sheep wheat filter hkeyed hsheep hwheat
  rw [wp]
  cases hrun : convertWithOffers app d sheep maxSheepSend wheat maxWheatReceive filter s with
  | ok r t => exact (hwalked.returns r.1 r.2 t hrun).1
  | error e t => exact hwalked.throws e t hrun

/-- **The book is walked once.** The loop of `convertWithOffers` ends. The offers that it gives to
the filter are the first ones of the book, which has each matching offer once, by price and then by
number; and they are all of them if it returns that it is done but needs more. The totals are the
sums over the trail and at most the maxima. -/
theorem convertWithOffers_walks (app : Application) (d : ℕ) (sheep wheat : Asset)
    (maxSheepSend maxWheatReceive : ℤ) (filter : OfferFrame → OfferFilterResult) (s : LedgerState)
    (hkeyed : Keyed s.db) (hsheep : maxSheepSend ≤ INT64_MAX)
    (hwheat : maxWheatReceive ≤ INT64_MAX) :
    ((book app.computePrice s.db wheat sheep).Perm (OfferFrame.offersOf s.db wheat sheep) ∧
      (book app.computePrice s.db wheat sheep).Pairwise (OfferFrame.better app.computePrice) ∧
      ((book app.computePrice s.db wheat sheep).map (·.mOffer.offerID)).Nodup) ∧
    ∃ offered, Loop app d sheep wheat filter { maxSheepSend, maxWheatReceive } s offered
        (convertWithOffers app d sheep maxSheepSend wheat maxWheatReceive filter s) ∧
      offered <+: book app.computePrice s.db wheat sheep ∧
      ∀ r c t, convertWithOffers app d sheep maxSheepSend wheat maxWheatReceive filter s =
          .ok (r, c) t →
        (r = .eOK → c.needMore → offered = book app.computePrice s.db wheat sheep) ∧
        c.sheepSend = (c.mOfferTrail.map (·.amountBought)).sum ∧
        c.wheatReceived = (c.mOfferTrail.map (·.amountSold)).sum ∧
        (0 ≤ maxSheepSend → c.sheepSend ≤ maxSheepSend) ∧
        (0 ≤ maxWheatReceive → c.wheatReceived ≤ maxWheatReceive) := by
  refine ⟨⟨book_perm _ _ _ _, book_sorted _ _ _ _, nodup_book hkeyed _ _ _⟩, ?_⟩
  obtain ⟨offered, hloop, hwalked⟩ :=
    convertWithOffers_walked app d sheep wheat filter hkeyed hsheep hwheat
  refine ⟨offered, hloop, hwalked.isPrefix, fun r c t heq => ?_⟩
  obtain ⟨⟨hadds, -⟩, hall⟩ := hwalked.returns r c t heq
  refine ⟨hall, hadds.sheepSend, hadds.wheatReceived, fun h => ?_, fun h => ?_⟩
  · have := hadds.sheepNonneg.2 h
    have := hadds.sheepLeft
    omega
  · have := hadds.wheatNonneg.2 h
    have := hadds.wheatLeft
    omega

/-- The number and the price of an offer of account 5, which sells 10. -/
def offerAt (offerID : ℕ) (n : ℤ) : Row OfferEntry :=
  ⟨{ sellerID := 5, offerID, selling := .native, buying := token, amount := 10, price := ⟨n, 1⟩,
     flags := 0 }, 1⟩

/-- Six offers, the later the better. -/
def sixOffers : LedgerState :=
  { oneSeller 40 1 2 with
    db := { (oneSeller 40 1 2).db with
      offers := [(7, 6), (8, 5), (9, 4), (10, 3), (11, 2), (12, 1)].foldl
        (fun offers o => offers.insert o.1 (offerAt o.1 o.2)) ∅ } }

/-- The price in thousandths. -/
def plainPrices : Application where
  BANK_MASTER_KEY := 1
  BANK_COMMISSION_KEY := 2
  getContentsHash := fun _ => 0
  hasHint := fun _ _ => true
  verifySig := fun _ _ _ => true
  computePrice := fun price => price.n * 1000 / price.d
  strKey := fun key => key

/-- Skips the offers at a price of 2 to 5. -/
def skipMiddle (o : OfferFrame) : OfferFilterResult :=
  if o.mOffer.price.n = 1 ∨ o.mOffer.price.n = 6 then .eKeep else .eSkip

theorem keyed_sixOffers : Keyed sixOffers.db := by
  intro id row hrow
  have hmem := Std.ExtTreeMap.mem_toList_iff_getElem?_eq_some.mpr hrow
  have hall : ∀ p ∈ sixOffers.db.offers.toList, p.2.entry.offerID = p.1 := by decide +kernel
  exact hall _ hmem

/-- The first offer and the sixth are crossed, and the four between them are skipped. -/
theorem convertWithOffers_walks_sixOffers :
    Keyed sixOffers.db ∧
      ∃ c t offered, convertWithOffers plainPrices 0 token 50 .native 60 skipMiddle sixOffers =
          .ok (.eOK, c) t ∧ c.mOfferTrail.length = 2 ∧
        Loop plainPrices 0 token .native skipMiddle
          { maxSheepSend := 50, maxWheatReceive := 60 } sixOffers offered (.ok (.eOK, c) t) ∧
        offered = book plainPrices.computePrice sixOffers.db .native token ∧
          c.sheepSend ≤ 50 ∧ c.wheatReceived ≤ 60 := by
  have hruns : returns (convertWithOffers plainPrices 0 token 50 .native 60 skipMiddle)
      (fun r _ => r.1 = .eOK ∧ r.2.mOfferTrail.length = 2 ∧ r.2.needMore) sixOffers = true := by
    decide +kernel
  obtain ⟨⟨r, c⟩, t, hrun, hresult⟩ := exists_of_returns hruns
  clear hruns
  obtain ⟨rfl, hlength, hmore⟩ : r = .eOK ∧ c.mOfferTrail.length = 2 ∧ c.needMore :=
    of_decide_eq_true hresult
  obtain ⟨-, offered, hloop, -, hreturns⟩ := convertWithOffers_walks plainPrices 0 token
    .native 50 60 skipMiddle sixOffers keyed_sixOffers (by decide) (by decide)
  obtain ⟨hall, -, -, hsheep, hwheat⟩ := hreturns _ c t hrun
  rw [hrun] at hloop
  exact ⟨keyed_sixOffers, c, t, offered, hrun, hlength, hloop, hall rfl hmore, hsheep (by decide),
    hwheat (by decide)⟩

end SmartCore.Transactions.OfferExchange
