import SmartCore.Transactions.Tidy

/-!
# What operations are made of

The code of an operation is put together from a few statements: loads, stores, scopes, and steps in
memory. `Program` says that it is, so that what every statement keeps, every operation keeps. That
is shown once for each kind of operation in `Transactions.Programs`, and used wherever something has
to hold of all of them.

A program also keeps the accounts it has in hand in `Custody`: their types and signers are ones that
are allowed, and the source of the operation stays the source.

Code runs `inside` a delta, where it may load and store. Once a scope is about to be left, it only
stores, but may also change entries in the delta around the scope (`leaving`). That is what an offer
does that has crossed others.
-/

namespace SmartCore.Transactions

open SmartCore.Ledger

/-! ## Custody -/

/-- What may be in an account, and what may be done to the ledger. -/
structure Custody where
  /-- the type of an account, and its thresholds -/
  account : AccountID → AccountType → Thresholds → Prop := fun _ _ _ => True
  /-- a signer of an account: its key and its type -/
  signer : AccountID → AccountID → ℕ → Prop := fun _ _ _ => True
  /-- the type of a new account -/
  newType : AccountType → Prop := fun _ => True
  /-- a payment that may be marked as reversed -/
  reversible : ℤ → Prop := fun _ => True
  source : AccountID
  /-- the signers of the source, as it is in memory -/
  sourceSigners : List Signer → Prop := fun _ => True

namespace Custody

variable (c : Custody)

def HoldsEntry (a : AccountEntry) : Prop :=
  c.account a.accountID a.accountType a.thresholds ∧
    ∀ s ∈ a.signers, c.signer a.accountID s.pubKey s.signerType

def Holds (f : AccountFrame) : Prop := c.HoldsEntry f.mAccountEntry

/-- An account that may be deleted: one that can be there again as a new one. -/
def Deletable (id : AccountID) : Prop := ∀ t thresholds, c.newType t → c.account id t thresholds

/-- The account of the source. -/
def HoldsSource (f : AccountFrame) : Prop :=
  c.Holds f ∧ f.getID = c.source ∧ c.sourceSigners f.mAccountEntry.signers

end Custody

/-- The same account, with the same type, thresholds and signers. -/
structure SameAccount (f f' : AccountFrame) : Prop where
  id : f'.getID = f.getID
  type : f'.mAccountEntry.accountType = f.mAccountEntry.accountType
  thresholds : f'.mAccountEntry.thresholds = f.mAccountEntry.thresholds
  signers : f'.mAccountEntry.signers = f.mAccountEntry.signers

section SameAccount

variable {c : Custody} {f f' f'' : AccountFrame}

theorem SameAccount.refl (f : AccountFrame) : SameAccount f f := ⟨rfl, rfl, rfl, rfl⟩

theorem SameAccount.trans (h : SameAccount f f') (h' : SameAccount f' f'') : SameAccount f f'' :=
  ⟨h'.id.trans h.id, h'.type.trans h.type, h'.thresholds.trans h.thresholds,
    h'.signers.trans h.signers⟩

theorem Custody.Holds.same (h : c.Holds f) (hs : SameAccount f f') : c.Holds f' := by
  have hid : f'.mAccountEntry.accountID = f.mAccountEntry.accountID := hs.id
  refine ⟨?_, ?_⟩
  · rw [hid, hs.type, hs.thresholds]
    exact h.1
  · rw [hid, hs.signers]
    exact h.2

theorem Custody.HoldsSource.same (h : c.HoldsSource f) (hs : SameAccount f f') :
    c.HoldsSource f' :=
  ⟨h.1.same hs, hs.id.trans h.2.1, by rw [hs.signers]; exact h.2.2⟩

end SameAccount

/-! ## Frame conditions -/

/-- What the transaction has in memory. -/
structure SameMemory (s s' : LedgerState) : Prop where
  mSigningAccount : s'.mSigningAccount = s.mSigningAccount
  mUsedSignatures : s'.mUsedSignatures = s.mUsedSignatures
  tm : s'.tm = s.tm
  results : s'.results = s.results
  mResult : s'.mResult = s.mResult
  mUsedSigners : s'.mUsedSigners = s.mUsedSigners

theorem SameMemory.refl (s : LedgerState) : SameMemory s s := ⟨rfl, rfl, rfl, rfl, rfl, rfl⟩

theorem SameMemory.trans {s t u : LedgerState} (h : SameMemory s t) (h' : SameMemory t u) :
    SameMemory s u :=
  ⟨h'.mSigningAccount.trans h.mSigningAccount, h'.mUsedSignatures.trans h.mUsedSignatures,
    h'.tm.trans h.tm, h'.results.trans h.results, h'.mResult.trans h.mResult,
    h'.mUsedSigners.trans h.mUsedSigners⟩

/-- Neither accounts nor reversed payments change, and nothing in memory. -/
structure Elsewhere (s s' : LedgerState) : Prop where
  accounts : s'.db.accounts = s.db.accounts
  reversedPayment : s'.db.reversedPayment = s.db.reversedPayment
  mSourceAccount : s'.mSourceAccount = s.mSourceAccount
  memory : SameMemory s s'

theorem Elsewhere.refl (s : LedgerState) : Elsewhere s s := ⟨rfl, rfl, rfl, .refl s⟩

/-- However it ends. -/
def WpElsewhere {α : Type} (x : LedgerM α) : Prop :=
  ∀ s, wp x (fun _ s' => Elsewhere s s') (fun _ s' => Elsewhere s s') s

theorem Elsewhere.trans {s t u : LedgerState} (h : Elsewhere s t) (h' : Elsewhere t u) :
    Elsewhere s u :=
  ⟨h'.accounts.trans h.accounts, h'.reversedPayment.trans h.reversedPayment,
    h'.mSourceAccount.trans h.mSourceAccount, h.memory.trans h'.memory⟩

namespace WpElsewhere

variable {α β : Type}

theorem bind {x : LedgerM α} {f : α → LedgerM β} (hx : WpElsewhere x)
    (hf : ∀ a, WpElsewhere (f a)) : WpElsewhere (x >>= f) := by
  intro s
  rw [wp_bind]
  refine wp_mono (hx s) (fun a t ht => ?_) fun _ _ h => h
  exact wp_mono (hf a t) (fun _ _ h => ht.trans h) fun _ _ h => ht.trans h

theorem pure (a : α) : WpElsewhere (pure a : LedgerM α) := fun s => .refl s

theorem throw (e : Exit) : WpElsewhere (throwThe Exit e : LedgerM α) := fun s => .refl s

theorem get : WpElsewhere (get : LedgerM LedgerState) := fun s => .refl s

theorem modify {f : LedgerState → LedgerState} (h : ∀ s, Elsewhere s (f s)) :
    WpElsewhere (modify f) := fun s => h s

theorem ite {p : Prop} [Decidable p] {x y : LedgerM α} (hx : WpElsewhere x) (hy : WpElsewhere y) :
    WpElsewhere (if p then x else y) := by
  split_ifs
  · exact hx
  · exact hy

theorem updateDelta (d : ℕ) (f : LedgerDelta → Option LedgerDelta) :
    WpElsewhere (updateDelta d f) := by
  intro s
  rw [wp_updateDelta]
  exact ⟨fun _ _ => ⟨rfl, rfl, rfl, rfl, rfl, rfl, rfl, rfl, rfl⟩, fun _ => .refl s⟩

theorem assertion (p : Bool) : WpElsewhere (assertion p) :=
  ite (pure _) (throw _)

theorem touch (d lastModified : ℕ) : WpElsewhere (touch d lastModified) :=
  get.bind fun _ => (assertion _).bind fun _ => pure _

theorem flushCachedEntry (k : LedgerKey) : WpElsewhere (flushCachedEntry k) :=
  modify fun _ => ⟨rfl, rfl, rfl, rfl, rfl, rfl, rfl, rfl, rfl⟩

theorem putCachedEntry (k : LedgerKey) (p : Option LedgerEntry) :
    WpElsewhere (putCachedEntry k p) :=
  modify fun _ => ⟨rfl, rfl, rfl, rfl, rfl, rfl, rfl, rfl, rfl⟩

theorem getCachedEntry (k : LedgerKey) : WpElsewhere (getCachedEntry k) := by
  intro s
  simp only [Ledger.getCachedEntry, wp_bind, wp_get]
  cases s.mEntryCache.lookup k with
  | none => exact .refl s
  | some p => exact ⟨rfl, rfl, rfl, rfl, rfl, rfl, rfl, rfl, rfl⟩

theorem loadAccount (d : ℕ) (id : AccountID) : WpElsewhere (AccountFrame.loadAccount d id) := by
  refine bind ?_ fun o => ?_
  · refine (getCachedEntry _).bind fun p => ?_
    split
    · exact pure _
    · refine get.bind fun s => ?_
      split
      · exact (putCachedEntry _ _).bind fun _ => pure _
      · exact (assertion _).bind fun _ => (putCachedEntry _ _).bind fun _ => pure _
  · split
    · exact (updateDelta _ _).bind fun _ => pure _
    · exact pure _

/-! Trust lines, offers and data are neither accounts nor reversed payments. -/

theorem loadTrustLine (d : ℕ) (id : AccountID) (asset : Asset) :
    WpElsewhere (TrustFrame.loadTrustLine d id asset) := by
  rw [TrustFrame.loadTrustLine]
  refine ite (throw _) ((getCachedEntry _).bind fun p => ?_)
  split
  · split
    · exact pure _
    · exact (assertion _).bind fun _ => pure _
  · refine get.bind fun s => ?_
    split
    · exact (putCachedEntry _ _).bind fun _ => pure _
    · exact ite (throw _) ((putCachedEntry _ _).bind fun _ => (updateDelta _ _).bind fun _ => pure _)

theorem trustLine_storeChange (f : TrustFrame) (d : ℕ) : WpElsewhere (f.storeChange d) := by
  rw [TrustFrame.storeChange]
  refine ite (throw _) ((flushCachedEntry _).bind fun _ => (touch d _).bind fun seq =>
    get.bind fun s => ?_)
  split
  · exact throw _
  · exact bind (modify fun _ => ⟨rfl, rfl, rfl, rfl, rfl, rfl, rfl, rfl, rfl⟩) fun _ =>
      (updateDelta _ _).bind fun _ => pure _

theorem trustLine_storeAdd (f : TrustFrame) (d : ℕ) : WpElsewhere (f.storeAdd d) := by
  rw [TrustFrame.storeAdd]
  refine ite (throw _) ((flushCachedEntry _).bind fun _ => (touch d _).bind fun seq =>
    get.bind fun s => ?_)
  split
  · exact throw _
  · exact bind (modify fun _ => ⟨rfl, rfl, rfl, rfl, rfl, rfl, rfl, rfl, rfl⟩) fun _ =>
      (updateDelta _ _).bind fun _ => pure _

theorem trustLine_storeDelete (f : TrustFrame) (d : ℕ) : WpElsewhere (f.storeDelete d) :=
  (flushCachedEntry _).bind fun _ =>
    bind (modify fun _ => ⟨rfl, rfl, rfl, rfl, rfl, rfl, rfl, rfl, rfl⟩) fun _ => updateDelta _ _

theorem loadOffer (d : ℕ) (sellerID : AccountID) (offerID : ℕ) :
    WpElsewhere (OfferFrame.loadOffer d sellerID offerID) := by
  rw [OfferFrame.loadOffer]
  refine get.bind fun s => ?_
  split
  · exact pure _
  · exact ite (throw _) ((updateDelta _ _).bind fun _ => pure _)

theorem loadBestOffers (computePrice : Price → ℤ) (numOffers offset : ℕ)
    (selling buying : Asset) :
    WpElsewhere (OfferFrame.loadBestOffers computePrice numOffers offset selling buying) :=
  get.bind fun _ => ite (throw _) (pure _)

theorem offer_storeDelete (f : OfferFrame) (d : ℕ) : WpElsewhere (f.storeDelete d) :=
  bind (modify fun _ => ⟨rfl, rfl, rfl, rfl, rfl, rfl, rfl, rfl, rfl⟩) fun _ => updateDelta _ _

theorem offer_storeChange (f : OfferFrame) (d : ℕ) : WpElsewhere (f.storeChange d) := by
  rw [OfferFrame.storeChange]
  refine (touch d _).bind fun seq => ite (throw _) (get.bind fun s => ?_)
  split
  · exact throw _
  · exact bind (modify fun _ => ⟨rfl, rfl, rfl, rfl, rfl, rfl, rfl, rfl, rfl⟩) fun _ =>
      (updateDelta _ _).bind fun _ => pure _

theorem offer_storeAdd (f : OfferFrame) (d : ℕ) : WpElsewhere (f.storeAdd d) := by
  rw [OfferFrame.storeAdd]
  refine (touch d _).bind fun seq => ite (throw _) (get.bind fun s => ?_)
  split
  · exact throw _
  · exact bind (modify fun _ => ⟨rfl, rfl, rfl, rfl, rfl, rfl, rfl, rfl, rfl⟩) fun _ =>
      (updateDelta _ _).bind fun _ => pure _

theorem data_storeDelete (f : DataFrame) (d : ℕ) : WpElsewhere (f.storeDelete d) :=
  bind (modify fun _ => ⟨rfl, rfl, rfl, rfl, rfl, rfl, rfl, rfl, rfl⟩) fun _ => updateDelta _ _

theorem data_storeChange (f : DataFrame) (d : ℕ) : WpElsewhere (f.storeChange d) := by
  rw [DataFrame.storeChange]
  refine (touch d _).bind fun seq => get.bind fun s => ?_
  split
  · exact throw _
  · exact bind (modify fun _ => ⟨rfl, rfl, rfl, rfl, rfl, rfl, rfl, rfl, rfl⟩) fun _ =>
      updateDelta _ _

theorem data_storeAdd (f : DataFrame) (d : ℕ) : WpElsewhere (f.storeAdd d) := by
  rw [DataFrame.storeAdd]
  refine (touch d _).bind fun seq => get.bind fun s => ?_
  split
  · exact throw _
  · exact bind (modify fun _ => ⟨rfl, rfl, rfl, rfl, rfl, rfl, rfl, rfl, rfl⟩) fun _ =>
      updateDelta _ _

end WpElsewhere

/-! ## Programs -/

/-- In which deltas code stores. -/
inductive Mode where
  | inside (d : ℕ)
  | leaving (d : ℕ)

/-- The innermost delta. -/
def Mode.delta : Mode → ℕ
  | inside d => d
  | leaving d => d + 1

/-- Whether a store of `k` may go to the delta `e`. -/
def Mode.Takes (m : Mode) (kind : StoreKind) (e : ℕ) (k : LedgerKey) : Prop :=
  match m with
  | inside d => e = d
  | leaving d => kind = .change ∧ (e = d ∨ e = d + 1) ∨ e = d + 1 ∧ ∀ db : Database, db.select k = none

theorem takes_inside {d : ℕ} {kind : StoreKind} {k : LedgerKey} :
    (Mode.inside d).Takes kind d k := rfl

theorem takes_outer {d : ℕ} {k : LedgerKey} : (Mode.leaving d).Takes .change d k :=
  Or.inl ⟨rfl, Or.inl rfl⟩

theorem Mode.takes_change (m : Mode) (k : LedgerKey) : m.Takes .change m.delta k := by
  cases m with
  | inside d => rfl
  | leaving d => exact Or.inl ⟨rfl, Or.inr rfl⟩

/-- Offers are not read through the cache. -/
theorem Mode.takes_offer (m : Mode) (kind : StoreKind) (f : OfferFrame) :
    m.Takes kind m.delta f.getKey := by
  cases m with
  | inside d => rfl
  | leaving d => exact Or.inr ⟨rfl, fun _ => rfl⟩

/-- Code that is put together from statements that are in order; what it returns satisfies the
predicate. -/
inductive Program (c : Custody) : {α : Type} → Mode → LedgerM α → (α → Prop) → Prop
  | pure {α : Type} {m : Mode} {R : α → Prop} {a : α} (h : R a) :
      Program c m (Pure.pure a) R
  | bind {α β : Type} {m : Mode} {R : α → Prop} {R' : β → Prop} {x : LedgerM α}
      {f : α → LedgerM β} (hx : Program c m x R) (hf : ∀ a, R a → Program c m (f a) R') :
      Program c m (x >>= f) R'
  | mono {α : Type} {m : Mode} {R R' : α → Prop} {x : LedgerM α} (hx : Program c m x R)
      (h : ∀ a, R a → R' a) : Program c m x R'
  | throw {α : Type} {m : Mode} {R : α → Prop} (e : Exit) : Program c m (throwThe Exit e) R
  | get {m : Mode} : Program c m get fun _ => True
  /-- an event goes to the trace -/
  | note {m : Mode} (e : Event) :
      Program c m (modify fun s => { s with db.trace := e :: s.db.trace }) fun _ => True
  | setHeader {m : Mode} (header : LedgerHeader) :
      Program c m (setHeader m.delta header) fun _ => True
  | load {α : Type} {d : ℕ} {x : LedgerM α} (hx : WpLoaded d x) (hx' : WpElsewhere x) :
      Program c (.inside d) x fun _ => True
  | loadAccount {d : ℕ} (id : AccountID) :
      Program c (.inside d) (AccountFrame.loadAccount d id)
        fun o => ∀ f ∈ o, c.Holds f ∧ f.getID = id
  | storeChange {m : Mode} {e : ℕ} {f : AccountFrame} (hf : c.Holds f)
      (he : m.Takes .change e f.getKey) : Program c m (f.storeChange e) (SameAccount f)
  | storeAdd {d : ℕ} {f : AccountFrame} (hf : c.newType f.mAccountEntry.accountType)
      (hsigners : f.mAccountEntry.signers = []) :
      Program c (.inside d) (f.storeAdd d) fun f' => c.Holds f' ∧ SameAccount f f'
  | storeDelete {d : ℕ} {f : AccountFrame} (hf : c.Deletable f.getID) :
      Program c (.inside d) (f.storeDelete d) fun _ => True
  | storeReversed {d : ℕ} {rID : ℤ} (h : c.reversible rID) :
      Program c (.inside d) (ReversedPaymentFrame.storeAdd d rID) fun _ => True
  /-- a trust line, an offer or data -/
  | store {α : Type} {m : Mode} {kind : StoreKind} {e : ℕ} {k : LedgerKey} {x : LedgerM α}
      (he : m.Takes kind e k) (hx : ∀ s, WpStored kind e k s x)
      (hk : ∀ rID, k ≠ .reversedPayment rID) (hx' : WpElsewhere x) (hx'' : KeepsTidy x) :
      Program c m x fun _ => True
  | getSource {m : Mode} : Program c m getSourceAccount c.HoldsSource
  | setSource {m : Mode} {f : AccountFrame} (hf : c.HoldsSource f) :
      Program c m (setSourceAccount f) fun _ => True
  /-- a failed operation is caught, and nothing else -/
  | catchFailed {α : Type} {d : ℕ} {R : α → Prop} {x : LedgerM α} {h : Exit → LedgerM α}
      (hx : Program c (.inside d) x R) (hfail : ∀ r, Program c (.inside d) (h (.opFailed r)) R)
      (hother : ∀ e, (∀ r, e ≠ .opFailed r) → h e = throwThe Exit e) :
      Program c (.inside d) (tryCatch x h) R
  /-- a delta alone, with a check before anything is done -/
  | guarded {α : Type} {d : ℕ} {R : α → Prop} {p : LedgerHeader → Prop} [DecidablePred p]
      {r : OperationResultTr} {x : LedgerHeader → LedgerM α}
      (hx : ∀ header, Program c (.inside (d + 1)) (x header) R)
      (hfail : ∀ header, Unfailing (x header)) :
      Program c (.inside d)
        (nested d (do
          let header ← getHeader (d + 1)
          failIf (p header) r
          x header)) R
  | scope {α β : Type} {d : ℕ} {R : α → Prop} {R' : β → Prop} {x : LedgerM α} {f : α → LedgerM β}
      (hx : Program c (.inside (d + 1)) x R) (hf : ∀ a, R a → Program c (.leaving d) (f a) R') :
      Program c (.inside d) (nested d (sqlTransaction (x >>= f))) R'

namespace Program

variable {c : Custody} {α β : Type} {m : Mode} {R : α → Prop}

theorem trivial {x : LedgerM α} (hx : Program c m x R) : Program c m x fun _ => True :=
  hx.mono fun _ _ => True.intro

theorem seq {R' : β → Prop} {x : LedgerM α} {f : α → LedgerM β} (hx : Program c m x R)
    (hf : ∀ a, Program c m (f a) R') : Program c m (x >>= f) R' :=
  hx.bind fun a _ => hf a

theorem ite {p : Prop} [Decidable p] {x y : LedgerM α} (hx : p → Program c m x R)
    (hy : ¬ p → Program c m y R) : Program c m (if p then x else y) R := by
  split_ifs with h
  · exact hx h
  · exact hy h

theorem fail {r : OperationResultTr} : Program c m (Transactions.fail r : LedgerM α) R :=
  .throw _

theorem failIf {p : Prop} [Decidable p] {r : OperationResultTr} :
    Program c m (Transactions.failIf p r) fun _ => ¬ p :=
  .ite (fun _ => .throw _) fun h => .pure h

theorem assertion {p : Bool} : Program c m (Ledger.assertion p) fun _ => True :=
  .ite (fun _ => .pure True.intro) fun _ => .throw _

theorem deref {o : Option α} {e : Exit} (h : ∀ a ∈ o, R a) : Program c m (deref o e) R := by
  cases o with
  | none => exact .throw e
  | some a => exact .pure (h a rfl)

theorem runIf {p : Prop} [Decidable p] {x : LedgerM Unit} (hx : p → Program c m x fun _ => True) :
    Program c m (runIf p x) fun _ => True :=
  .ite hx fun _ => .pure True.intro

/-- What is read in the state is of no concern. -/
theorem read {g : LedgerState → α} : Program c m (do return g (← MonadStateOf.get)) fun _ => True :=
  get.seq fun _ => .pure True.intro

theorem getHeader {d : ℕ} : Program c m (Ledger.getHeader d) fun _ => True :=
  get.seq fun _ => .pure True.intro

end Program

end SmartCore.Transactions
