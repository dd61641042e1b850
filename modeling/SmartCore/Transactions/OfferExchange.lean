import SmartCore.Ledger.Frames

/-!
# Crossing offers

`OfferExchange` buys wheat with sheep. `crossOffer` takes as much as it can of one offer, and
`convertWithOffers` goes through the offers from the best price on, five at a time, until it has
enough, until the filter stops it or until an offer is only taken in part.
-/

namespace SmartCore.Transactions

open SmartCore.Ledger

/-- The configuration, and what is computed outside of this code: hashes, signatures, the order
of prices as floating point numbers and of keys as text. -/
structure Application where
  BANK_MASTER_KEY : AccountID
  BANK_COMMISSION_KEY : AccountID
  getContentsHash : Transaction → ℕ
  hasHint : AccountID → ℕ → Bool
  verifySig : AccountID → ℕ → ℕ → Bool
  computePrice : Price → ℤ
  strKey : AccountID → ℤ

variable (app : Application)

/-- The quotient, or `none` if it does not fit. -/
def bigDivide (A B C : ℤ) : LedgerM (Option ℤ) := do
  assertion (0 ≤ A ∧ 0 ≤ B ∧ 0 < C)
  return if A * B / C ≤ INT64_MAX then some (A * B / C) else none

def bigDivideOrThrow (A B C : ℤ) : LedgerM ℤ := do
  match ← bigDivide A B C with
  | some result => return result
  | none => throw (.exception "overflow while performing bigDivide")

namespace OfferExchange

inductive CrossOfferResult where
  | eOfferPartial
  | eOfferTaken
  | eOfferCantConvert
deriving DecidableEq, Repr

/-- What one offer gave. -/
structure Crossed where
  result : CrossOfferResult
  numWheatReceived : ℤ := 0
  numSheepSend : ℤ := 0
  trail : List ClaimOfferAtom := []
deriving DecidableEq, Repr

/-- What the seller can give of the wheat it offers, by what it can receive of the sheep. -/
def sellerMaxWheat (d : ℕ) (offer : OfferEntry) :
    LedgerM (ℤ × Option TrustFrame) := do
  if offer.buying = .native then return (INT64_MAX, none)
  else
    let sheepLineAccountB ← TrustFrame.loadTrustLine d offer.sellerID offer.buying
    let sellerMaxSheep := sheepLineAccountB.elim 0 (·.getMaxAmountReceive)
    let numWheatReceived ← bigDivide sellerMaxSheep offer.price.d offer.price.n
    return (numWheatReceived.getD INT64_MAX, sheepLineAccountB)

/-- What the seller has of the wheat it offers. -/
def wheatCanSell (accountB : AccountFrame) (wheat : Asset) (wheatLineAccountB : Option TrustFrame) :
    LedgerM ℤ := do
  if wheat = .native then accountB.getBalanceAboveReserve
  else
    match wheatLineAccountB with
    | some line => if line.isAuthorized then line.getBalance else return 0
    | none => return 0

/-- Deletes the offer if all of it is taken, else leaves the rest of it. -/
def reduceOffer (d : ℕ) (offer : OfferFrame) (accountB : AccountFrame) (offerTaken : Bool)
    (numWheatReceived : ℤ) : LedgerM AccountFrame := do
  if offerTaken then
    offer.storeDelete d
    let accountB ← deref (← accountB.addNumEntries (-1)) .abort
    accountB.storeChange d
  else
    let _ ← { offer with mOffer := { offer.mOffer with
      amount := int64 (offer.mOffer.amount - numWheatReceived) } : OfferFrame }.storeChange d
    return accountB

/-- Adds `amount` to what the seller has, natively or on a trust line; `none` if it cannot. -/
def adjust (d : ℕ) (accountB : AccountFrame) (asset : Asset) (line : Option TrustFrame)
    (amount : ℤ) : LedgerM (Option AccountFrame) := do
  if amount = 0 then return some accountB
  else if asset = .native then
    let accountB ← { accountB with mAccountEntry := { accountB.mAccountEntry with
      balance := int64 (accountB.getBalance + amount) } : AccountFrame }.storeChange d
    return some accountB
  else
    match (← deref line .abort).addBalance amount with
    | none => return none
    | some line =>
      let _ ← line.storeChange d
      return some accountB

def crossOffer (d : ℕ) (sellingWheatOffer : OfferFrame) (maxWheatReceived maxSheepSend : ℤ) :
    LedgerM Crossed := do
  let offer := sellingWheatOffer.mOffer
  -- we're about to make changes to the offer
  recordEntry d sellingWheatOffer.mEntry
  match ← AccountFrame.loadAccount d offer.sellerID with
  | none => throw (.exception "invalid database state: offer must have matching account")
  | some accountB =>
    let wheatLineAccountB ←
      if offer.selling = .native then pure none
      else TrustFrame.loadTrustLine d offer.sellerID offer.selling
    let (sellerMax, sheepLineAccountB) ← sellerMaxWheat d offer
    let canSell ← wheatCanSell accountB offer.selling wheatLineAccountB
    -- the lesser of the amount of wheat offered and the amount the seller has
    let available := min sellerMax canSell
    let amount := min available offer.amount
    let reduced := decide (maxWheatReceived < amount)
    let numWheatReceived := min amount maxWheatReceived
    -- this guy can get X wheat to you. How many sheep does that get him?
    let numSheepSend := (← bigDivide numWheatReceived offer.price.n offer.price.d).getD INT64_MAX
    let reducedOffer := reduced || decide (maxSheepSend < numSheepSend)
    let numSheepSend := min numSheepSend maxSheepSend
    -- bias towards seller
    let numWheatReceived ← bigDivideOrThrow numSheepSend offer.price.d offer.price.n
    let nothing := decide (numWheatReceived = 0 ∨ numSheepSend = 0)
    if nothing && reducedOffer then return { result := .eOfferCantConvert }
    else
      -- an offer that gives nothing is deleted as a bogus offer
      let numWheatReceived := if nothing then 0 else numWheatReceived
      let numSheepSend := if nothing then 0 else numSheepSend
      let offerTaken := nothing || decide (amount ≤ numWheatReceived)
      let accountB ← reduceOffer d { sellingWheatOffer with mOffer := { offer with amount } }
        accountB offerTaken numWheatReceived
      match ← adjust d accountB offer.buying sheepLineAccountB numSheepSend with
      | none => return { result := .eOfferCantConvert }
      | some accountB =>
        match ← adjust d accountB offer.selling wheatLineAccountB (-numWheatReceived) with
        | none => return { result := .eOfferCantConvert }
        | some accountB =>
          return { result := if offerTaken then .eOfferTaken else .eOfferPartial
                   numWheatReceived, numSheepSend
                   trail := [⟨accountB.getID, offer.offerID, offer.selling, numWheatReceived,
                     offer.buying, numSheepSend⟩] }

/-- What a filter says of an offer; it stops for the reason that the offer is one's own, or for
another. -/
inductive OfferFilterResult where
  | eKeep
  | eStop (crossSelf : Bool)
  | eSkip
deriving DecidableEq, Repr

inductive ConvertResult where
  | eOK
  | ePartial
  | eFilterStop (crossSelf : Bool)
deriving DecidableEq, Repr

/-- The variables of the loops of `convertWithOffers`. -/
structure Conversion where
  sheepSend : ℤ := 0
  wheatReceived : ℤ := 0
  maxSheepSend : ℤ
  maxWheatReceive : ℤ
  offerOffset : ℕ := 0
  mOfferTrail : List ClaimOfferAtom := []
deriving DecidableEq, Repr

namespace Conversion

def needMore (c : Conversion) : Prop := 0 < c.maxWheatReceive ∧ 0 < c.maxSheepSend

instance (c : Conversion) : Decidable c.needMore := inferInstanceAs (Decidable (_ ∧ _))

/-- Adds what an offer gave. -/
def add (c : Conversion) (x : Crossed) : Conversion :=
  { sheepSend := int64 (c.sheepSend + x.numSheepSend)
    wheatReceived := int64 (c.wheatReceived + x.numWheatReceived)
    maxSheepSend := int64 (c.maxSheepSend - x.numSheepSend)
    maxWheatReceive := int64 (c.maxWheatReceive - x.numWheatReceived)
    offerOffset := if x.result = .eOfferTaken then c.offerOffset - 1 else c.offerOffset
    mOfferTrail := c.mOfferTrail ++ x.trail }

end Conversion

/-- The loop over the offers that were loaded: `none` for the result if it came to their end. -/
def crossOffers (d : ℕ) (filter : OfferFrame → OfferFilterResult) :
    List OfferFrame → Conversion → LedgerM (Option ConvertResult × Conversion)
  | [], c => return (none, c)
  | wheatOffer :: retList, c =>
    match filter wheatOffer with
    | .eStop crossSelf => return (some (.eFilterStop crossSelf), c)
    | .eSkip => crossOffers d filter retList c
    | .eKeep => do
      let x ← crossOffer d wheatOffer c.maxWheatReceive c.maxSheepSend
      if x.result = .eOfferCantConvert then return (some .ePartial, c)
      else if ¬ (c.add x).needMore then return (some .eOK, c.add x)
      else if x.result = .eOfferPartial then return (some .ePartial, c.add x)
      else crossOffers d filter retList (c.add x)

/-- The loop over batches of five offers. An offer is either deleted or skipped before the next
batch is loaded, so there are no more batches than offers. -/
def convertBatches (d : ℕ) (sheep wheat : Asset) (filter : OfferFrame → OfferFilterResult) :
    ℕ → Conversion → LedgerM (ConvertResult × Conversion)
  | 0, c => return (.eOK, c)
  | batches + 1, c =>
    if ¬ c.needMore then return (.eOK, c)
    else do
      let retList ← OfferFrame.loadBestOffers app.computePrice 5 c.offerOffset wheat sheep
      match ← crossOffers d filter retList
          { c with offerOffset := c.offerOffset + retList.length } with
      | (some r, c) => return (r, c)
      | (none, c) =>
        -- still stuff to fill but no more offers
        if c.needMore ∧ retList.length < 5 then return (.eOK, c)
        else convertBatches d sheep wheat filter batches c

def convertWithOffers (d : ℕ) (sheep : Asset) (maxSheepSend : ℤ) (wheat : Asset)
    (maxWheatReceive : ℤ) (filter : OfferFrame → OfferFilterResult) :
    LedgerM (ConvertResult × Conversion) := do
  convertBatches app d sheep wheat filter ((← get).db.offers.size + 1)
    { maxSheepSend, maxWheatReceive }

end OfferExchange

end SmartCore.Transactions
