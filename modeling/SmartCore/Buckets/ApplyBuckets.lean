import Mathlib.Data.List.TakeWhile
import SmartCore.Buckets.Restart
import SmartCore.Ledger.Frames

/-!
# Applying the buckets of another list to the database

A node that catches up has the database of an earlier ledger. It goes through the levels of the
bucket list of a later one, from the deepest to the shallowest, the snapshot of a level before its
current bucket. From the first bucket on that is not the same as its own, it applies them all: every
live entry is stored over its row or added, and for every dead one the row is deleted.

**What it leaves of a row** is what the versions of its key in these buckets make of it, one after
the other (`applyAll_spec`). That is not always the last version.

* A row whose key is in none of these buckets stays as it is, also if the entry is gone from the
  later ledger and its dead entry has been dropped at the last level since.
* `applySigners` compares weights only. A signer that was removed and added again, with the same
  weight and another type, keeps the type that is in the row.

**Theorem (`applyBuckets_iff`).** These are the only ways to go wrong. For all histories and all
times at which merges complete, no store fails, and the database is that of the later ledger iff
neither happens.
-/

namespace SmartCore.Buckets

open Ledger

/-! ## Storing an entry as it is -/

section Store

variable (db : Database)

/-- The signers are stored as a difference to those in the table. -/
def storeAccount (lastModified : ℕ) (a : AccountEntry) : Option Database :=
  let f : AccountFrame := { mAccountEntry := a, lastModified }
  if f.isValid ∧ (a.signers.map (·.pubKey)).Nodup then
    let old := db.accounts[a.accountID]?.elim [] (·.entry.signers)
    let row := f.toRow (AccountFrame.mergeSigners a.signers old)
    some { db with accounts := db.accounts.insert a.accountID row }
  else none

def storeTrustLine (lastModified : ℕ) (tl : TrustLineEntry) : Option Database :=
  let f : TrustFrame := { mTrustLine := tl, lastModified }
  if f.isValid then
    let row := db.trustlines[f.getKey]?.elim ⟨tl, lastModified⟩ fun row => f.toRow row.entry
    some { db with trustlines := db.trustlines.insert f.getKey row }
  else none

/-- The primary key of the table is `offerID`. -/
def storeOffer (lastModified : ℕ) (o : OfferEntry) : Option Database :=
  let f : OfferFrame := { mOffer := o, lastModified }
  if f.isValid ∧ ∀ row ∈ db.offers[o.offerID]?, row.entry.sellerID = o.sellerID then
    some { db with offers := db.offers.insert o.offerID ⟨o, lastModified⟩ }
  else none

/-- The table does not have `lastmodified`. -/
def storeData (d : DataEntry) : Database :=
  { db with accountdata := db.accountdata.insert (.data d.accountID d.dataName) d }

/-- `storeChange` does nothing. -/
def storeReversedPayment (lastModified : ℕ) (rID : ℤ) : Database :=
  { db with reversedPayment := db.reversedPayment.insertIfNew rID lastModified }

/-- `EntryFrame::storeAddOrChange`, with the entry as it is: the delta does not update
`lastModified`. Nothing, if an assertion fails or an exception is thrown. -/
def storeAddOrChange (e : LedgerEntry) : Option Database :=
  match e.data with
  | .account a => storeAccount db e.lastModifiedLedgerSeq a
  | .trustLine tl => storeTrustLine db e.lastModifiedLedgerSeq tl
  | .offer o => storeOffer db e.lastModifiedLedgerSeq o
  | .data d => some (storeData db d)
  | .reversedPayment rp => some (storeReversedPayment db e.lastModifiedLedgerSeq rp.rID)

/-- `EntryFrame::storeDelete` -/
def storeDelete : LedgerKey → Database
  | .account id => { db with accounts := db.accounts.erase id }
  | .trustLine id asset => { db with trustlines := db.trustlines.erase (.trustLine id asset) }
  | .offer _ offerID => { db with offers := db.offers.erase offerID }
  | .data id dataName => { db with accountdata := db.accountdata.erase (.data id dataName) }
  | .reversedPayment rID => { db with reversedPayment := db.reversedPayment.erase rID }

end Store

/-! ## Applying buckets -/

/-- A turn of the loop of `BucketApplicator::advance`. -/
def applyEntry (db : Database) : BucketEntry LedgerEntry LedgerKey → Option Database
  | .LIVEENTRY e => storeAddOrChange db e
  | .DEADENTRY k => some (storeDelete db k)

/-- A `BucketApplicator` that is advanced to the end. -/
def applyBucket (db : Database) (b : Bucket LedgerEntry LedgerKey) : Option Database :=
  b.entries.foldlM applyEntry db

section Work

variable (hash : Bucket LedgerEntry LedgerKey → Hash)
  (getBucket : Hash → Option (Bucket LedgerEntry LedgerKey))

/-- Applies the bucket with hash `remote`, if it is not the same as the local one, or if a bucket
was applied before it. -/
def applyIfDiffers (local' : Bucket LedgerEntry LedgerKey) (remote : Hash)
    (st : Database × Bool) : Option (Database × Bool) :=
  if st.2 || remote ≠ hash local' then do
    let b ← getBucket remote
    let db ← applyBucket st.1 b
    return (db, true)
  else some st

/-- One level of `ApplyBucketsWork`: the database, and `mApplying`. The buckets of the level are
then set to the remote ones, which has no effect on the levels that follow. -/
def applyLevel (mApplyState : HistoryArchiveState) (bl : BucketList LedgerEntry LedgerKey)
    (st : Database × Bool) (mLevel : ℕ) : Option (Database × Bool) := do
  let level := bl.mLevels mLevel
  let i := mApplyState.currentBuckets mLevel
  let st ← applyIfDiffers hash getBucket level.mSnap i.snap st
  applyIfDiffers hash getBucket level.mCurr i.curr st

/-- `ApplyBucketsWork` -/
def applyBuckets (mApplyState : HistoryArchiveState) (bl : BucketList LedgerEntry LedgerKey)
    (db : Database) : Option Database :=
  ((List.range kNumLevels).reverse.foldlM (applyLevel hash getBucket mApplyState bl)
    (db, false)).map (·.1)

end Work

/-! ## Rows and versions -/

/-- The row of a key, as an entry. -/
def row (db : Database) : LedgerKey → Option LedgerEntry
  | .account id => db.accounts[id]?.map fun r => ⟨r.lastmodified, .account r.entry⟩
  | .trustLine id asset => db.trustlines[LedgerKey.trustLine id asset]?.map fun r =>
      ⟨r.lastmodified, .trustLine r.entry⟩
  | .offer sellerID offerID => (db.offers[offerID]?.filter (·.entry.sellerID = sellerID)).map
      fun r => ⟨r.lastmodified, .offer r.entry⟩
  | .data id dataName => db.accountdata[LedgerKey.data id dataName]?.map fun d => ⟨0, .data d⟩
  | .reversedPayment rID => db.reversedPayment[rID]?.map fun lastModified =>
      ⟨lastModified, .reversedPayment ⟨rID⟩⟩

/-- What the tables have of an entry. -/
def stored (e : LedgerEntry) : LedgerEntry :=
  match e.data with
  | .data d => ⟨0, .data d⟩
  | _ => e

/-- The database has these entries, and no others. -/
def Holds (db : Database) (view : LedgerKey → Option LedgerEntry) : Prop :=
  ∀ k, row db k = (view k).map stored

/-- What is left of a row when an entry is stored over it. -/
def writeOver (e : LedgerEntry) : Option LedgerEntry → LedgerEntry
  | none => stored e
  | some old =>
    match e.data, old.data with
    | .account a, .account a' => ⟨e.lastModifiedLedgerSeq, .account
        { a with signers := AccountFrame.mergeSigners a.signers a'.signers }⟩
    | .reversedPayment _, _ => old
    | _, _ => stored e

/-- What an entry of a bucket makes of a row. -/
def write (old : Option LedgerEntry) : BucketEntry LedgerEntry LedgerKey → Option LedgerEntry
  | .LIVEENTRY e => some (writeOver e old)
  | .DEADENTRY _ => none

/-- The buckets that are applied, in this order. -/
def appliedBuckets (bl remote : BucketList LedgerEntry LedgerKey) :
    List (Bucket LedgerEntry LedgerKey) :=
  ((bl.buckets.reverse.zip remote.buckets.reverse).dropWhile fun p => p.1 = p.2).map (·.2)

/-- The versions of a key in these buckets. -/
def versions (bl remote : BucketList LedgerEntry LedgerKey) (k : LedgerKey) :
    List (BucketEntry LedgerEntry LedgerKey) :=
  (appliedBuckets bl remote).filterMap fun b => b.find k

/-! ## What one entry does -/

/-- What every entry of a ledger passed when it was stored. -/
def Valid (e : LedgerEntry) : Prop :=
  match e.data with
  | .account a => AccountFrame.isValid { mAccountEntry := a } = true ∧
      (a.signers.map (·.pubKey)).Pairwise (· < ·)
  | .trustLine tl => TrustFrame.isValid { mTrustLine := tl } = true
  | .offer o => OfferFrame.isValid { mOffer := o } = true
  | _ => True

/-- Offers are numbered, so that an `offerID` belongs to one seller. -/
def Owned (owner : ℕ → AccountID) : LedgerKey → Prop
  | .offer sellerID offerID => sellerID = owner offerID
  | _ => True

/-- Rows are at their keys. -/
structure WellKept (owner : ℕ → AccountID) (db : Database) : Prop where
  keyed : ∀ k e, row db k = some e → LedgerEntryKey e = k
  sellers : ∀ id r, db.offers[id]? = some r → r.entry.sellerID = owner id

variable {owner : ℕ → AccountID} {db : Database}

theorem stored_key (e : LedgerEntry) : LedgerEntryKey (stored e) = LedgerEntryKey e := by
  obtain ⟨lastModified, data⟩ := e
  cases data <;> rfl

theorem writeOver_key {e : LedgerEntry} {old : Option LedgerEntry}
    (h : ∀ o ∈ old, LedgerEntryKey o = LedgerEntryKey e) :
    LedgerEntryKey (writeOver e old) = LedgerEntryKey e := by
  cases old with
  | none => exact stored_key e
  | some o =>
    have ho := h o rfl
    rw [writeOver]
    split
    · rename_i heq _
      rw [LedgerEntryKey, LedgerEntryKey, heq]
    · exact ho
    · exact stored_key e

/-- Of trust lines, offers and data, everything is written. -/
theorem writeOver_eq_stored {e : LedgerEntry} (ha : ∀ a, e.data ≠ .account a)
    (hr : ∀ rp, e.data ≠ .reversedPayment rp) (old : Option LedgerEntry) :
    writeOver e old = stored e := by
  cases old with
  | none => rfl
  | some o =>
    rw [writeOver]
    split
    · rename_i heq _
      exact absurd heq (ha _)
    · rename_i heq
      exact absurd heq (hr _)
    · rfl

/-- Nothing but the row of the key is written. -/
structure Writes (owner : ℕ → AccountID) (db db' : Database)
    (m : BucketEntry LedgerEntry LedgerKey) : Prop where
  row_self : row db' m.key = write (row db m.key) m
  row_other : ∀ k ≠ m.key, row db' k = row db k
  sellers : ∀ id r, db'.offers[id]? = some r → r.entry.sellerID = owner id

theorem Writes.wellKept {m : BucketEntry LedgerEntry LedgerKey} {db' : Database}
    (h : Writes owner db db' m) (hdb : WellKept owner db) : WellKept owner db' := by
  refine ⟨?_, h.sellers⟩
  intro k e he
  by_cases hk : k = m.key
  · subst hk
    rw [h.row_self] at he
    cases m with
    | DEADENTRY k => cases he
    | LIVEENTRY e' =>
      obtain rfl := Option.some.inj he
      refine writeOver_key ?_
      intro o ho
      exact hdb.keyed _ o ho
  · rw [h.row_other k hk] at he
    exact hdb.keyed k e he

/-! A table of which one row changes. -/

theorem row_accounts_ne {accounts : Table AccountID (Row AccountEntry)} {id : AccountID}
    (h : ∀ id' ≠ id, accounts[id']? = db.accounts[id']?) :
    ∀ k ≠ .account id, row { db with accounts } k = row db k := by
  intro k hk
  cases k with
  | account id' =>
    have hne : id' ≠ id := fun heq => hk (heq ▸ rfl)
    simp only [row, h id' hne]
  | _ => rfl

theorem row_trustlines_ne {trustlines : Table LedgerKey (Row TrustLineEntry)} {k₀ : LedgerKey}
    (h : ∀ k ≠ k₀, trustlines[k]? = db.trustlines[k]?) :
    ∀ k ≠ k₀, row { db with trustlines } k = row db k := by
  intro k hk
  cases k with
  | trustLine id asset => simp only [row, h _ hk]
  | _ => rfl

/-- The rows of other keys with the same number are of no one. -/
theorem row_offers_ne {offers : Table ℕ (Row OfferEntry)} {offerID : ℕ}
    (h : ∀ id ≠ offerID, offers[id]? = db.offers[id]?)
    (hsellers : ∀ id r, db.offers[id]? = some r → r.entry.sellerID = owner id)
    (hsellers' : ∀ r, offers[offerID]? = some r → r.entry.sellerID = owner offerID) :
    ∀ k ≠ .offer (owner offerID) offerID, row { db with offers } k = row db k := by
  intro k hk
  cases k with
  | offer sellerID id =>
    by_cases hid : id = offerID
    · subst hid
      have hne : ¬ owner id = sellerID := fun heq => hk (heq ▸ rfl)
      have hnone : ∀ o : Option (Row OfferEntry), (∀ r ∈ o, r.entry.sellerID = owner id) →
          o.filter (·.entry.sellerID = sellerID) = none := by
        intro o ho
        rw [Option.filter_eq_none_iff]
        intro r hr
        rw [decide_eq_true_eq, ho r hr]
        exact hne
      simp only [row]
      rw [hnone _ hsellers', hnone _ (hsellers id)]
    · simp only [row, h id hid]
  | _ => rfl

theorem row_accountdata_ne {accountdata : Table LedgerKey DataEntry} {k₀ : LedgerKey}
    (h : ∀ k ≠ k₀, accountdata[k]? = db.accountdata[k]?) :
    ∀ k ≠ k₀, row { db with accountdata } k = row db k := by
  intro k hk
  cases k with
  | data id dataName => simp only [row, h _ hk]
  | _ => rfl

theorem row_reversedPayment_ne {reversedPayment : Table ℤ ℕ} {rID : ℤ}
    (h : ∀ id ≠ rID, reversedPayment[id]? = db.reversedPayment[id]?) :
    ∀ k ≠ .reversedPayment rID, row { db with reversedPayment } k = row db k := by
  intro k hk
  cases k with
  | reversedPayment id =>
    have hne : id ≠ rID := fun heq => hk (heq ▸ rfl)
    simp only [row, h id hne]
  | _ => rfl

theorem sellers_of_ne {offers : Table ℕ (Row OfferEntry)} {offerID : ℕ}
    (h : ∀ id ≠ offerID, offers[id]? = db.offers[id]?)
    (hsellers : ∀ id r, db.offers[id]? = some r → r.entry.sellerID = owner id)
    (hsellers' : ∀ r, offers[offerID]? = some r → r.entry.sellerID = owner offerID) :
    ∀ id r, offers[id]? = some r → r.entry.sellerID = owner id := by
  intro id r hr
  by_cases hid : id = offerID
  · rw [hid] at hr ⊢
    exact hsellers' r hr
  · rw [h id hid] at hr
    exact hsellers id r hr

theorem writes_delete (hdb : WellKept owner db) {k : LedgerKey} (hk : Owned owner k) :
    Writes owner db (storeDelete db k) (.DEADENTRY k) := by
  cases k with
  | account id =>
    refine ⟨?_, row_accounts_ne Table.getElem?_erase_of_ne, hdb.sellers⟩
    simp [storeDelete, row, write]
  | trustLine id asset =>
    refine ⟨?_, row_trustlines_ne Table.getElem?_erase_of_ne, hdb.sellers⟩
    simp [storeDelete, row, write]
  | offer sellerID offerID =>
    obtain rfl : sellerID = owner offerID := hk
    have hnone : ∀ r, (db.offers.erase offerID)[offerID]? = some r →
        r.entry.sellerID = owner offerID := by simp
    refine ⟨?_, row_offers_ne Table.getElem?_erase_of_ne hdb.sellers hnone,
      sellers_of_ne Table.getElem?_erase_of_ne hdb.sellers hnone⟩
    simp [storeDelete, row, write]
  | data id dataName =>
    refine ⟨?_, row_accountdata_ne Table.getElem?_erase_of_ne, hdb.sellers⟩
    simp [storeDelete, row, write]
  | reversedPayment rID =>
    refine ⟨?_, row_reversedPayment_ne Table.getElem?_erase_of_ne, hdb.sellers⟩
    simp [storeDelete, row, write]

theorem mergeSigners_nil (signers : List Signer) : AccountFrame.mergeSigners signers [] = signers := by
  induction signers with
  | nil => rfl
  | cons s signers ih =>
    rw [AccountFrame.mergeSigners]
    simp [ih]

theorem writes_store (hdb : WellKept owner db) {e : LedgerEntry} (hvalid : Valid e)
    (hk : Owned owner (LedgerEntryKey e)) :
    ∃ db', storeAddOrChange db e = some db' ∧ Writes owner db db' (.LIVEENTRY e) := by
  obtain ⟨lastModified, data⟩ := e
  cases data with
  | account a =>
    obtain ⟨hvalid, hsigners⟩ := hvalid
    refine ⟨_, if_pos ⟨hvalid, hsigners.imp ne_of_lt⟩,
      ?_, row_accounts_ne Table.getElem?_insert_of_ne, hdb.sellers⟩
    show ((db.accounts.insert a.accountID _)[a.accountID]?).map _ = some (writeOver _ _)
    rw [Std.ExtTreeMap.getElem?_insert_self]
    cases hrow : db.accounts[a.accountID]? with
    | none =>
      have hnone : row db (.account a.accountID) = none := by simp [row, hrow]
      show _ = some (writeOver _ (row db (.account a.accountID)))
      rw [hnone]
      simp [writeOver, stored, AccountFrame.toRow, mergeSigners_nil]
    | some r =>
      have hsome : row db (.account a.accountID) = some ⟨r.lastmodified, .account r.entry⟩ := by
        simp [row, hrow]
      show _ = some (writeOver _ (row db (.account a.accountID)))
      rw [hsome]
      rfl
  | trustLine tl =>
    refine ⟨_, if_pos hvalid, ?_, row_trustlines_ne Table.getElem?_insert_of_ne, hdb.sellers⟩
    show ((db.trustlines.insert (.trustLine tl.accountID tl.asset) _)[
      LedgerKey.trustLine tl.accountID tl.asset]?).map _ = some (writeOver _ _)
    rw [Std.ExtTreeMap.getElem?_insert_self]
    rw [writeOver_eq_stored (by simp) (by simp)]
    cases hrow : db.trustlines[LedgerKey.trustLine tl.accountID tl.asset]? with
    | none => simp [stored, TrustFrame.getKey, hrow]
    | some r =>
      -- the key of the row is not written, and is the key of the entry
      have hsome : row db (.trustLine tl.accountID tl.asset) =
          some ⟨r.lastmodified, .trustLine r.entry⟩ := by simp [row, hrow]
      obtain ⟨hid, hasset⟩ := LedgerKey.trustLine.inj (hdb.keyed _ _ hsome)
      simp [stored, TrustFrame.getKey, hrow, TrustFrame.toRow, hid, hasset]
  | offer o =>
    have howner : o.sellerID = owner o.offerID := hk
    have hseller : ∀ r ∈ db.offers[o.offerID]?, r.entry.sellerID = o.sellerID := by
      intro r hr
      rw [howner]
      exact hdb.sellers _ r hr
    have hnew : ∀ r, (db.offers.insert o.offerID ⟨o, lastModified⟩)[o.offerID]? = some r →
        r.entry.sellerID = owner o.offerID := by
      intro r hr
      rw [Std.ExtTreeMap.getElem?_insert_self] at hr
      cases hr
      exact howner
    refine ⟨_, if_pos ⟨hvalid, hseller⟩, ?_, ?_,
      sellers_of_ne Table.getElem?_insert_of_ne hdb.sellers hnew⟩
    · rw [write, writeOver_eq_stored (by simp) (by simp)]
      show (((db.offers.insert o.offerID ⟨o, lastModified⟩)[o.offerID]?).filter _).map _ = _
      rw [Std.ExtTreeMap.getElem?_insert_self]
      simp [stored]
    · intro k hne
      refine row_offers_ne Table.getElem?_insert_of_ne hdb.sellers hnew k ?_
      rw [← howner]
      exact hne
  | data d =>
    refine ⟨_, rfl, ?_, row_accountdata_ne Table.getElem?_insert_of_ne, hdb.sellers⟩
    rw [write, writeOver_eq_stored (by simp) (by simp)]
    show ((db.accountdata.insert (.data d.accountID d.dataName) d)[
      LedgerKey.data d.accountID d.dataName]?).map _ = _
    rw [Std.ExtTreeMap.getElem?_insert_self]
    rfl
  | reversedPayment rp =>
    refine ⟨_, rfl, ?_, row_reversedPayment_ne ?_, hdb.sellers⟩
    · show ((db.reversedPayment.insertIfNew rp.rID lastModified)[rp.rID]?).map _ =
        some (writeOver _ (row db (.reversedPayment rp.rID)))
      rw [Std.ExtTreeMap.getElem?_insertIfNew]
      have hmem := Std.ExtTreeMap.mem_iff_isSome_getElem? (t := db.reversedPayment) (a := rp.rID)
      cases hrow : db.reversedPayment[rp.rID]? with
      | none => simp [hmem, row, hrow, writeOver, stored]
      | some old =>
        rw [if_neg (by simp [hmem, hrow])]
        simp [row, hrow, writeOver]
    · intro id hne
      rw [Std.ExtTreeMap.getElem?_insertIfNew]
      simp [hne.symm]

/-- An entry of a bucket that can be applied. -/
structure Applicable (owner : ℕ → AccountID) (m : BucketEntry LedgerEntry LedgerKey) : Prop where
  valid : ∀ e ∈ m.live?, Valid e
  owned : Owned owner m.key

theorem writes_applyEntry (hdb : WellKept owner db) {m : BucketEntry LedgerEntry LedgerKey}
    (hm : Applicable owner m) : ∃ db', applyEntry db m = some db' ∧ Writes owner db db' m := by
  cases m with
  | LIVEENTRY e => exact writes_store hdb (hm.valid e rfl) hm.owned
  | DEADENTRY k => exact ⟨_, rfl, writes_delete hdb hm.owned⟩

/-! ## What a bucket and a list of buckets do -/

/-- A bucket has at most one entry for a row. -/
theorem applyBucket_spec (hdb : WellKept owner db) {b : Bucket LedgerEntry LedgerKey}
    (hb : ∀ m ∈ b.entries, Applicable owner m) :
    ∃ db', applyBucket db b = some db' ∧ WellKept owner db' ∧
      ∀ k, row db' k = (b.find k).elim (row db k) (write (row db k)) := by
  obtain ⟨entries, hasc⟩ := b
  simp only [applyBucket, Bucket.find]
  induction entries generalizing db with
  | nil => exact ⟨db, rfl, hdb, fun _ => rfl⟩
  | cons m entries ih =>
    obtain ⟨db₁, hfirst, hwrites⟩ := writes_applyEntry hdb (hb m List.mem_cons_self)
    obtain ⟨db', hrest, hdb', hrow⟩ := ih (hwrites.wellKept hdb)
      hasc.tail fun m' hm' => hb m' (List.mem_cons_of_mem _ hm')
    refine ⟨db', ?_, hdb', ?_⟩
    · rw [List.foldlM_cons, hfirst]
      exact hrest
    · intro k
      rw [hrow k, List.find?_cons]
      split
      · -- the keys of the others are greater
        rename_i hk
        simp only [decide_eq_true_eq] at hk
        subst hk
        rw [List.find?_eq_none.mpr fun e he => by simpa using (hasc.lt he).ne']
        exact hwrites.row_self
      · rename_i hk
        simp only [decide_eq_false_iff_not] at hk
        rw [hwrites.row_other k (Ne.symm hk)]

/-- **What is left of a row** is what the versions of its key make of it, one after the other. -/
theorem applyAll_spec {bs : List (Bucket LedgerEntry LedgerKey)} (hdb : WellKept owner db)
    (hbs : ∀ b ∈ bs, ∀ m ∈ b.entries, Applicable owner m) :
    ∃ db', bs.foldlM applyBucket db = some db' ∧ WellKept owner db' ∧
      ∀ k, row db' k = (bs.filterMap fun b => b.find k).foldl write (row db k) := by
  induction bs generalizing db with
  | nil => exact ⟨db, rfl, hdb, fun _ => rfl⟩
  | cons b bs ih =>
    obtain ⟨db₁, hfirst, hdb₁, hrow₁⟩ := applyBucket_spec hdb (hbs b List.mem_cons_self)
    obtain ⟨db', hrest, hdb', hrow⟩ := ih hdb₁ fun b' hb' => hbs b' (List.mem_cons_of_mem _ hb')
    refine ⟨db', ?_, hdb', ?_⟩
    · rw [List.foldlM_cons, hfirst]
      exact hrest
    · intro k
      rw [hrow k, hrow₁ k]
      rw [List.filterMap_cons]
      cases b.find k <;> rfl

/-! ## The buckets that are applied -/

section Work

variable {hash : Bucket LedgerEntry LedgerKey → Hash}
  {getBucket : Hash → Option (Bucket LedgerEntry LedgerKey)}

/-- The pairs of local and remote buckets from the snapshot of a level on. -/
def levelPairs (bl remote : BucketList LedgerEntry LedgerKey) (i : ℕ) :
    List (Bucket LedgerEntry LedgerKey × Bucket LedgerEntry LedgerKey) :=
  [((bl.mLevels i).mSnap, (remote.mLevels i).mSnap),
    ((bl.mLevels i).mCurr, (remote.mLevels i).mCurr)]

theorem zip_buckets (bl remote : BucketList LedgerEntry LedgerKey) :
    bl.buckets.reverse.zip remote.buckets.reverse =
      (List.range kNumLevels).reverse.flatMap (levelPairs bl remote) := by
  rfl

/-- A loop over the levels is one over the pairs. -/
theorem applyLevel_eq (ready : ℕ → Bool) (bl remote : BucketList LedgerEntry LedgerKey)
    (st : Database × Bool) (i : ℕ) :
    applyLevel hash getBucket (remote.saveState hash ready) bl st i =
      (levelPairs bl remote i).foldlM
        (fun st p => applyIfDiffers hash getBucket p.1 (hash p.2) st) st := by
  have hcurr : ((remote.resolveReady ready).mLevels i).mCurr = (remote.mLevels i).mCurr :=
    resolveReady_curr remote ready i
  have hsnap : ((remote.resolveReady ready).mLevels i).mSnap = (remote.mLevels i).mSnap :=
    resolveReady_snap remote ready i
  simp only [applyLevel, BucketList.saveState, hcurr, hsnap, levelPairs, List.foldlM_cons,
    List.foldlM_nil]
  cases applyIfDiffers hash getBucket (bl.mLevels i).mSnap (hash (remote.mLevels i).mSnap) st with
  | none => rfl
  | some st' =>
    show applyIfDiffers _ _ _ _ _ = applyIfDiffers _ _ _ _ _ >>= pure
    rw [bind_pure]

theorem foldlM_flatMap {α β σ : Type} (f : α → List β) (g : σ → β → Option σ) (l : List α) (s : σ) :
    (l.flatMap f).foldlM g s = l.foldlM (fun s a => (f a).foldlM g s) s := by
  induction l generalizing s with
  | nil => rfl
  | cons a l ih =>
    rw [List.flatMap_cons, List.foldlM_append, List.foldlM_cons]
    exact congrArg _ (funext ih)

theorem applyIfDiffers_pos {b b' : Bucket LedgerEntry LedgerKey} {st : Database × Bool}
    (hget : getBucket (hash b') = some b') (h : st.2 = true ∨ hash b' ≠ hash b) :
    applyIfDiffers hash getBucket b (hash b') st = (applyBucket st.1 b').map (·, true) := by
  rw [applyIfDiffers, if_pos (by simpa using h), hget]
  cases hdb : applyBucket st.1 b' <;> simp [hdb]

/-- Once a bucket was applied, all that follow are. -/
theorem foldlM_applying
    {ps : List (Bucket LedgerEntry LedgerKey × Bucket LedgerEntry LedgerKey)}
    (hget : ∀ p ∈ ps, getBucket (hash p.2) = some p.2) (db : Database) :
    (ps.foldlM (fun st p => applyIfDiffers hash getBucket p.1 (hash p.2) st) (db, true)).map (·.1) =
      (ps.map (·.2)).foldlM applyBucket db := by
  induction ps generalizing db with
  | nil => rfl
  | cons p ps ih =>
    rw [List.foldlM_cons, List.map_cons, List.foldlM_cons,
      applyIfDiffers_pos (hget p List.mem_cons_self) (Or.inl rfl)]
    cases applyBucket db p.2 with
    | none => rfl
    | some db' => exact ih (fun p' hp' => hget p' (List.mem_cons_of_mem _ hp')) db'

theorem foldlM_applyIfDiffers
    {ps : List (Bucket LedgerEntry LedgerKey × Bucket LedgerEntry LedgerKey)}
    (hget : ∀ p ∈ ps, getBucket (hash p.2) = some p.2)
    (hinj : ∀ p ∈ ps, hash p.2 = hash p.1 → p.1 = p.2) (db : Database) :
    (ps.foldlM (fun st p => applyIfDiffers hash getBucket p.1 (hash p.2) st) (db, false)).map (·.1) =
      ((ps.dropWhile fun p => p.1 = p.2).map (·.2)).foldlM applyBucket db := by
  induction ps with
  | nil => rfl
  | cons p ps ih =>
    by_cases heq : p.1 = p.2
    · rw [List.dropWhile_cons_of_pos (by simpa using heq), List.foldlM_cons, applyIfDiffers,
        if_neg (by simp [heq])]
      exact ih (fun p' hp' => hget p' (List.mem_cons_of_mem _ hp'))
        fun p' hp' => hinj p' (List.mem_cons_of_mem _ hp')
    · rw [List.dropWhile_cons_of_neg (by simpa using heq), ← foldlM_applying hget]
      have hne : hash p.2 ≠ hash p.1 := fun h => heq (hinj p List.mem_cons_self h)
      rw [List.foldlM_cons, List.foldlM_cons,
        applyIfDiffers_pos (hget p List.mem_cons_self) (Or.inr hne),
        applyIfDiffers_pos (hget p List.mem_cons_self) (Or.inl rfl)]

/-- **`ApplyBucketsWork` applies the buckets from the first on that differs.** -/
theorem applyBuckets_eq (ready : ℕ → Bool) {bl remote : BucketList LedgerEntry LedgerKey}
    (hget : ∀ b ∈ remote.buckets, getBucket (hash b) = some b)
    (hinj : ∀ b ∈ bl.buckets, ∀ b' ∈ remote.buckets, hash b' = hash b → b = b') (db : Database) :
    applyBuckets hash getBucket (remote.saveState hash ready) bl db =
      (appliedBuckets bl remote).foldlM applyBucket db := by
  have hpairs : ∀ p ∈ bl.buckets.reverse.zip remote.buckets.reverse,
      p.1 ∈ bl.buckets ∧ p.2 ∈ remote.buckets := by
    intro p hp
    exact ⟨List.mem_reverse.mp (List.of_mem_zip hp).1, List.mem_reverse.mp (List.of_mem_zip hp).2⟩
  have hlevels : applyLevel hash getBucket (remote.saveState hash ready) bl = fun st i =>
      (levelPairs bl remote i).foldlM
        (fun st p => applyIfDiffers hash getBucket p.1 (hash p.2) st) st := by
    funext st i
    exact applyLevel_eq ready bl remote st i
  rw [applyBuckets, hlevels, ← foldlM_flatMap, ← zip_buckets, foldlM_applyIfDiffers]
  · rfl
  · intro p hp
    exact hget p.2 (hpairs p hp).2
  · intro p hp
    exact hinj p.1 (hpairs p hp).1 p.2 (hpairs p hp).2

end Work

/-! ## Where the entries of a list come from -/

section From

variable {K E : Type} [Keyed E K] [LinearOrder K] {P : BucketEntry E K → Prop}

/-- All entries of the bucket satisfy `P`. -/
def BucketFrom (P : BucketEntry E K → Prop) (b : Bucket E K) : Prop := ∀ m ∈ b.entries, P m

theorem BucketFrom.empty : BucketFrom P ({} : Bucket E K) := by
  intro m hm
  cases hm

theorem BucketFrom.merge {b b' M : Bucket E K} {shadows : List (Bucket E K)} {keep : Bool}
    (hb : BucketFrom P b) (hb' : BucketFrom P b') (hM : Bucket.merge b b' shadows keep = some M) :
    BucketFrom P M := by
  intro m hm
  have hfind : M.find m.key = some m := Bucket.find_eq_some_iff.mpr ⟨hm, rfl⟩
  rw [Bucket.find_merge hM] at hfind
  obtain ⟨hfind, -⟩ := Option.filter_eq_some_iff.mp hfind
  rcases Option.or_eq_some_iff.mp hfind with hfind | ⟨-, hfind⟩
  · exact hb' m (Bucket.find_eq_some_iff.mp hfind).1
  · exact hb m (Bucket.find_eq_some_iff.mp hfind).1

/-- So do those of a level, and of the output of its merge. -/
structure LevelFrom (P : BucketEntry E K → Prop) (level : BucketLevel E K) : Prop where
  curr : BucketFrom P level.mCurr
  snap : BucketFrom P level.mSnap
  next : ∀ M, level.mNextCurr.output? = some M → BucketFrom P M

theorem LevelFrom.commit {level level' : BucketLevel E K} (h : LevelFrom P level)
    (hcommit : level.commit = .ok level') : LevelFrom P level' := by
  cases hout : level.mNextCurr.output? with
  | some M =>
    rw [BucketLevel.commit_output hout] at hcommit
    cases hcommit
    exact ⟨h.next M hout, h.snap, nofun⟩
  | none =>
    -- a merge that gives nothing fails, and without one nothing is done
    obtain ⟨e, he⟩ := FutureBucket.resolve_none hout
    obtain ⟨mLevel, mCurr, mSnap, mNextCurr⟩ := level
    cases mNextCurr with
    | FB_LIVE_OUTPUT output => cases hout
    | FB_LIVE_INPUTS curr snap shadows keep =>
      simp only [BucketLevel.commit, FutureBucket.isLive, if_true, he] at hcommit
      cases hcommit
    | FB_CLEAR | FB_HASH_OUTPUT _ | FB_HASH_INPUTS _ _ _ _ =>
      cases hcommit
      exact h

theorem LevelFrom.prepare {level level' : BucketLevel E K} {currLedger : UInt32}
    {snap : Bucket E K} {shadows : List (Bucket E K)} (h : LevelFrom P level)
    (hsnap : BucketFrom P snap) (hprepare : level.prepare currLedger snap shadows = .ok level') :
    LevelFrom P level' := by
  cases hmerging : level.mNextCurr.isMerging with
  | true =>
    rw [BucketLevel.prepare, hmerging] at hprepare
    cases hprepare
  | false =>
    rw [BucketLevel.prepare_eq _ _ _ _ hmerging] at hprepare
    cases hprepare
    refine ⟨h.curr, h.snap, ?_⟩
    intro M hM
    refine BucketFrom.merge ?_ hsnap hM
    split
    · exact BucketFrom.empty
    · exact h.curr

/-- So do those of a list. -/
def ListFrom (P : BucketEntry E K → Prop) (bl : BucketList E K) : Prop :=
  ∀ i, LevelFrom P (bl.mLevels i)

variable {bl bl' : BucketList E K}

theorem ListFrom.mono {Q : BucketEntry E K → Prop} (h : ListFrom P bl) (hPQ : ∀ m, P m → Q m) :
    ListFrom Q bl := by
  intro i
  exact ⟨fun m hm => hPQ m ((h i).curr m hm), fun m hm => hPQ m ((h i).snap m hm),
    fun M hM m hm => hPQ m ((h i).next M hM m hm)⟩

theorem ListFrom.setLevel (h : ListFrom P bl) (i : ℕ) {level : BucketLevel E K}
    (hlevel : LevelFrom P level) : ListFrom P (bl.setLevel i level) := by
  intro j
  by_cases hj : j = i
  · subst hj
    simpa [BucketList.setLevel] using hlevel
  · simpa [BucketList.setLevel, hj] using h j

theorem ListFrom.spill (h : ListFrom P bl) {ledger : UInt32} {shadows : List (Bucket E K)} {i : ℕ}
    (hspill : bl.spill ledger shadows (i + 1) = .ok bl') : ListFrom P bl' := by
  rw [spill_bind] at hspill
  cases hcommit : (bl.mLevels (i + 1)).commit with
  | error e =>
    rw [hcommit] at hspill
    cases hspill
  | ok level =>
    rw [hcommit] at hspill
    cases hprepare : level.prepare ledger (bl.curr i) shadows with
    | error e =>
      simp only [bind, Except.bind, hprepare] at hspill
      cases hspill
    | ok level' =>
      simp only [bind, Except.bind, hprepare] at hspill
      cases hspill
      have hsnap : LevelFrom P (bl.mLevels i).snap.1 := ⟨BucketFrom.empty, (h i).curr, (h i).next⟩
      exact (h.setLevel i hsnap).setLevel (i + 1)
        (((h (i + 1)).commit hcommit).prepare (h i).curr hprepare)

theorem ListFrom.spillLoop (h : ListFrom P bl) {ledger : UInt32} {n : ℕ}
    {shadows shadows' : List (Bucket E K)}
    (hloop : BucketList.spillLoop ledger n shadows bl = .ok (shadows', bl')) :
    ListFrom P bl' := by
  induction n generalizing shadows bl with
  | zero =>
    cases hloop
    exact h
  | succ n ih =>
    rw [BucketList.spillLoop] at hloop
    cases hassert : assertThat (decide (2 ≤ shadows.length)) .shadows with
    | error e =>
      rw [hassert] at hloop
      cases hloop
    | ok u =>
      simp only [bind, Except.bind, hassert] at hloop
      split at hloop
      · cases hspill : bl.spill ledger shadows.dropLast.dropLast (n + 1) with
        | error e =>
          rw [hspill] at hloop
          cases hloop
        | ok bl₁ =>
          rw [hspill] at hloop
          exact ih (h.spill hspill) hloop
      · exact ih h hloop

/-- An entry of the bucket list is that of a batch. -/
def FromBatch (batches : List (Batch E K)) (m : BucketEntry E K) : Prop :=
  ∃ batch ∈ batches, batch.find m.key = some m

theorem ListFrom.addBatch {ledger : UInt32} {batch : Batch E K}
    (hinv : Inv (ledger.toNat - 1) bl) (hL : 0 < ledger.toNat) (hbatch : batch.Distinct)
    (h : ListFrom P bl) (hP : ∀ m, batch.find m.key = some m → P m)
    (hadd : bl.addBatch ledger batch = .ok bl') : ListFrom P bl' := by
  obtain ⟨bl₁, hloop, -⟩ := spillLoop_spec hinv hL le_rfl (Mid.start hinv)
  obtain ⟨fresh, hfresh, hfind⟩ := fresh_spec hbatch
  have h₁ : ListFrom P bl₁ := h.spillLoop hloop
  have hfreshFrom : BucketFrom P fresh := by
    intro m hm
    refine hP m ?_
    rw [← hfind]
    exact Bucket.find_eq_some_iff.mpr ⟨hm, rfl⟩
  rw [addBatch_eq hL hloop, hfresh] at hadd
  simp only [bind, Except.bind] at hadd
  cases hprepare : (bl₁.mLevels 0).prepare ledger fresh [] with
  | error e =>
    rw [hprepare] at hadd
    cases hadd
  | ok level =>
    rw [hprepare] at hadd
    cases hcommit : level.commit with
    | error e =>
      simp only [hcommit] at hadd
      cases hadd
    | ok level' =>
      simp only [hcommit] at hadd
      cases hadd
      exact h₁.setLevel 0 (((h₁ 0).prepare hfreshFrom hprepare).commit hcommit)

theorem ListFrom.resolveReady (h : ListFrom P bl) (ready : ℕ → Bool) :
    ListFrom P (bl.resolveReady ready) := by
  intro i
  have hcurr : ((bl.resolveReady ready).mLevels i).mCurr = (bl.mLevels i).mCurr :=
    resolveReady_curr bl ready i
  have hsnap : ((bl.resolveReady ready).mLevels i).mSnap = (bl.mLevels i).mSnap :=
    resolveReady_snap bl ready i
  refine ⟨hcurr ▸ (h i).curr, hsnap ▸ (h i).snap, ?_⟩
  intro M hM
  rcases resolveReady_next bl ready i with hnext | ⟨M', hM', hnext⟩
  · rw [hnext] at hM
    exact (h i).next M hM
  · rw [hnext] at hM
    cases hM
    exact (h i).next M hM'

/-- **Every entry of the list is that of a batch.** -/
theorem listFrom_runBatches (ready : ℕ → ℕ → Bool) {batches : List (Batch E K)}
    (hlen : batches.length < 2 ^ 32) (hdistinct : ∀ batch ∈ batches, batch.Distinct)
    (hrun : runBatches ready batches = .ok bl) : ListFrom (FromBatch batches) bl := by
  induction batches using List.reverseRecOn generalizing bl with
  | nil =>
    cases hrun
    intro i
    exact ⟨BucketFrom.empty, BucketFrom.empty, fun _ hnext => by cases hnext⟩
  | append_singleton batches batch ih =>
    rw [List.length_append, List.length_singleton] at hlen
    have hdistinct₁ : ∀ b ∈ batches, b.Distinct := fun b hb => hdistinct b (by simp [hb])
    obtain ⟨bl₁, hrun₁, hinv, -⟩ := runBatches_spec ready (by omega) hdistinct₁
    have hnat : (UInt32.ofNat (batches.length + 1)).toNat = batches.length + 1 :=
      UInt32.toNat_ofNat_of_lt' hlen
    have hinv' : Inv ((UInt32.ofNat (batches.length + 1)).toNat - 1) bl₁ := by
      rw [hnat]
      exact hinv
    obtain ⟨bl₂, hadd, -⟩ := addBatch_spec hinv' (by omega) (hdistinct batch (by simp))
    have hmono : ∀ m, FromBatch batches m → FromBatch (batches ++ [batch]) m := by
      rintro m ⟨b, hb, hfind⟩
      exact ⟨b, by simp [hb], hfind⟩
    have h₁ : ListFrom (FromBatch (batches ++ [batch])) bl₁ :=
      (ih (by omega) hdistinct₁ hrun₁).mono hmono
    have h₂ : ListFrom (FromBatch (batches ++ [batch])) bl₂ :=
      ListFrom.addBatch (by rw [hnat]; exact hinv) (by omega) (hdistinct batch (by simp)) h₁
        (fun m hm => ⟨batch, by simp, hm⟩) hadd
    rw [runBatches_concat, hrun₁] at hrun
    simp only [bind, Except.bind, hadd] at hrun
    cases hrun
    exact h₂.resolveReady _

theorem ListFrom.of_mem_buckets (h : ListFrom P bl) {b : Bucket E K} (hb : b ∈ bl.buckets) :
    BucketFrom P b := by
  obtain ⟨i, -, hb⟩ := List.mem_flatMap.mp hb
  simp only [List.mem_cons, List.not_mem_nil, or_false] at hb
  rcases hb with rfl | rfl
  · exact (h i).curr
  · exact (h i).snap

end From

/-! ## Signers -/

/-- The signers of a row. -/
def signersOf : Option LedgerEntry → List Signer
  | some ⟨_, .account a⟩ => a.signers
  | _ => []

/-- The signer that is in the table, if its weight is the same. -/
def kept (old : List Signer) (s : Signer) : Signer :=
  (old.find? fun o => o.pubKey = s.pubKey ∧ o.weight = s.weight).getD s

/-- Goes back from the newest to the oldest, for as long as they have the signer with this weight:
what the earliest of them has. -/
def earliest (s : Signer) : List (Option LedgerEntry) → Signer
  | [] => s
  | e :: older =>
    match (signersOf e).find? fun o => o.pubKey = s.pubKey ∧ o.weight = s.weight with
    | some o => earliest o older
    | none => s

theorem kept_same (old : List Signer) (s : Signer) :
    (kept old s).pubKey = s.pubKey ∧ (kept old s).weight = s.weight := by
  rw [kept]
  cases hfind : old.find? fun o => o.pubKey = s.pubKey ∧ o.weight = s.weight with
  | none => exact ⟨rfl, rfl⟩
  | some o => simpa using List.find?_some hfind

theorem earliest_same (s : Signer) (older : List (Option LedgerEntry)) :
    (earliest s older).pubKey = s.pubKey ∧ (earliest s older).weight = s.weight := by
  induction older generalizing s with
  | nil => exact ⟨rfl, rfl⟩
  | cons e older ih =>
    rw [earliest]
    split
    · rename_i o hfind
      obtain ⟨hkey, hweight⟩ : o.pubKey = s.pubKey ∧ o.weight = s.weight := by
        simpa using List.find?_some hfind
      rw [(ih o).1, (ih o).2]
      exact ⟨hkey, hweight⟩
    · exact ⟨rfl, rfl⟩

theorem kept_append {front : List Signer} {old : List Signer} {s : Signer}
    (h : ∀ o ∈ front, o.pubKey ≠ s.pubKey) : kept (front ++ old) s = kept old s := by
  have hnone : (front.find? fun o => o.pubKey = s.pubKey ∧ o.weight = s.weight) = none := by
    rw [List.find?_eq_none]
    intro o ho
    simpa using fun hkey => absurd hkey (h o ho)
  rw [kept, kept, List.find?_append, hnone, Option.none_or]

theorem kept_of_forall_ne {old : List Signer} {s : Signer} (h : ∀ o ∈ old, o.pubKey ≠ s.pubKey) :
    kept old s = s := by
  have happend : kept (old ++ []) s = kept [] s := kept_append h
  rwa [List.append_nil] at happend

/-- The signers are in order, and none twice. -/
abbrev InOrder (signers : List Signer) : Prop := (signers.map (·.pubKey)).Pairwise (· < ·)

theorem inOrder_cons {s : Signer} {signers : List Signer} :
    InOrder (s :: signers) ↔ (∀ o ∈ signers, s.pubKey < o.pubKey) ∧ InOrder signers := by
  simp [InOrder]

/-- **What `applySigners` leaves.** -/
theorem mergeSigners_eq {signers old : List Signer} (hnew : InOrder signers) (hold : InOrder old) :
    AccountFrame.mergeSigners signers old = signers.map (kept old) := by
  induction signers generalizing old with
  | nil => rfl
  | cons s signers ih =>
    obtain ⟨hlt, hnew⟩ := inOrder_cons.mp hnew
    obtain ⟨front, rest, rfl, hfront, hdrop⟩ : ∃ front rest, old = front ++ rest ∧
        (∀ o ∈ front, o.pubKey < s.pubKey) ∧
        old.dropWhile (fun o => decide (o.pubKey < s.pubKey)) = rest :=
      ⟨_, _, List.takeWhile_append_dropWhile.symm, fun o ho => by simpa using List.mem_takeWhile_imp ho,
        rfl⟩
    -- what was passed has smaller keys than this signer and all that follow
    have hself : ∀ o ∈ front, o.pubKey ≠ s.pubKey := fun o ho => (hfront o ho).ne
    have htail : ∀ rest', signers.map (kept (front ++ rest')) = signers.map (kept rest') := by
      intro rest'
      refine List.map_congr_left fun s' hs' => kept_append fun o ho => ?_
      exact ((hfront o ho).trans (hlt s' hs')).ne
    rw [AccountFrame.mergeSigners, List.map_cons, hdrop, kept_append hself, htail]
    cases rest with
    | nil =>
      show s :: AccountFrame.mergeSigners signers [] = _
      rw [ih hnew List.Pairwise.nil]
      rfl
    | cons o rest =>
      have hold' : InOrder (o :: rest) := by
        rw [InOrder, List.map_append] at hold
        exact (List.pairwise_append.mp hold).2.1
      obtain ⟨hmin, hrest⟩ := inOrder_cons.mp hold'
      have hge : ¬ o.pubKey < s.pubKey := by
        have hhead := List.head?_dropWhile_not (fun o => decide (o.pubKey < s.pubKey))
          (front ++ o :: rest)
        rw [hdrop] at hhead
        simpa using hhead
      show (if s.pubKey = o.pubKey then _ else _) = _
      by_cases hkey : s.pubKey = o.pubKey
      · have hnone : kept rest s = s := by
          refine kept_of_forall_ne fun o' ho' => ?_
          rw [hkey]
          exact (hmin o' ho').ne'
        have htail' : signers.map (kept (o :: rest)) = signers.map (kept rest) := by
          refine List.map_congr_left fun s' hs' => @kept_append [o] rest s' fun o' ho' => ?_
          rw [List.mem_singleton.mp ho', ← hkey]
          exact (hlt s' hs').ne
        rw [if_pos hkey, ih hnew hrest, htail']
        congr 1
        by_cases hweight : s.weight = o.weight
        · simp [kept, hkey, hweight]
        · have hskip : kept (o :: rest) s = kept rest s := by
            rw [kept, List.find?_cons_of_neg (by simp [Ne.symm hweight]), kept]
          rw [if_pos hweight, hskip, hnone]
      · have hnone : kept (o :: rest) s = s := by
          have hlt' : s.pubKey < o.pubKey := lt_of_le_of_ne (not_lt.mp hge) hkey
          refine kept_of_forall_ne fun o' ho' => ?_
          rcases List.mem_cons.mp ho' with rfl | ho'
          · exact hlt'.ne'
          · exact (hlt'.trans (hmin o' ho')).ne'
        rw [if_neg hkey, ih hnew hold', hnone]

/-! ## What the versions of a key leave -/

/-- An entry that a table has at its key. -/
structure Row.At (k : LedgerKey) (r : Option LedgerEntry) : Prop where
  key : ∀ e ∈ r, LedgerEntryKey e = k
  inOrder : InOrder (signersOf r)

theorem write_account {id : AccountID} {r : Option LedgerEntry} (hr : Row.At (.account id) r)
    {e : LedgerEntry} {a : AccountEntry} (he : e.data = .account a) (ha : InOrder a.signers) :
    write r (.LIVEENTRY e) = some ⟨e.lastModifiedLedgerSeq,
      .account { a with signers := a.signers.map (kept (signersOf r)) }⟩ := by
  obtain ⟨lastModified, data⟩ := e
  obtain rfl : data = .account a := he
  cases r with
  | none =>
    have hid : a.signers.map (kept (signersOf none)) = a.signers := List.map_id' _
    rw [hid]
    rfl
  | some old =>
    obtain ⟨lastModified', data'⟩ := old
    have hkey := hr.key _ rfl
    cases data' with
    | account a' =>
      rw [← mergeSigners_eq ha hr.inOrder]
      rfl
    | _ => cases hkey

/-- A version that can be written to the row of `k`. -/
structure Version (k : LedgerKey) (m : BucketEntry LedgerEntry LedgerKey) : Prop where
  key : m.key = k
  valid : ∀ e ∈ m.live?, Valid e

theorem Version.account {id : AccountID} {m : BucketEntry LedgerEntry LedgerKey}
    (h : Version (.account id) m) : (∃ k, m = .DEADENTRY k) ∨
      ∃ e a, m = .LIVEENTRY e ∧ e.data = .account a ∧ InOrder a.signers := by
  cases m with
  | DEADENTRY k => exact Or.inl ⟨k, rfl⟩
  | LIVEENTRY e =>
    obtain ⟨lastModified, data⟩ := e
    have hkey := h.key
    cases data with
    | account a => exact Or.inr ⟨_, a, rfl, rfl, (h.valid _ rfl).2⟩
    | _ => cases hkey

theorem signersOf_map (old : List Signer) (e : LedgerEntry) (a : AccountEntry) :
    signersOf (some ⟨e.lastModifiedLedgerSeq, .account { a with signers := a.signers.map (kept old) }⟩) =
      a.signers.map (kept old) := rfl

theorem inOrder_map_kept {signers old : List Signer} (h : InOrder signers) :
    InOrder (signers.map (kept old)) := by
  have hkeys : (signers.map (kept old)).map (·.pubKey) = signers.map (·.pubKey) := by
    rw [List.map_map]
    exact List.map_congr_left fun s _ => (kept_same old s).1
  rw [InOrder, hkeys]
  exact h

theorem Row.At.write {id : AccountID} {r : Option LedgerEntry} (hr : Row.At (.account id) r)
    {m : BucketEntry LedgerEntry LedgerKey} (hm : Version (.account id) m) :
    Row.At (.account id) (write r m) := by
  rcases hm.account with ⟨k, rfl⟩ | ⟨e, a, rfl, he, ha⟩
  · exact ⟨nofun, List.Pairwise.nil⟩
  · rw [write_account hr he ha]
    refine ⟨?_, inOrder_map_kept ha⟩
    rintro e' ⟨rfl⟩
    have hkey := hm.key
    rw [BucketEntry.key] at hkey
    obtain ⟨lastModified, data⟩ := e
    obtain rfl : data = .account a := he
    exact hkey

/-- The row after these versions, of which the first is the newest. -/
def rowAfter (r₀ : Option LedgerEntry) (vs : List (BucketEntry LedgerEntry LedgerKey)) :
    Option LedgerEntry :=
  vs.foldr (fun m r => write r m) r₀

theorem rowAfter_reverse (r₀ : Option LedgerEntry)
    (vs : List (BucketEntry LedgerEntry LedgerKey)) : rowAfter r₀ vs.reverse = vs.foldl write r₀ :=
  List.foldr_reverse

theorem rowAfter_at {id : AccountID} {r₀ : Option LedgerEntry} (hr : Row.At (.account id) r₀)
    {vs : List (BucketEntry LedgerEntry LedgerKey)} (hvs : ∀ m ∈ vs, Version (.account id) m) :
    Row.At (.account id) (rowAfter r₀ vs) := by
  induction vs with
  | nil => exact hr
  | cons m vs ih =>
    exact (ih fun m' hm' => hvs m' (List.mem_cons_of_mem _ hm')).write (hvs m List.mem_cons_self)

theorem find?_map_kept (old : List Signer) (signers : List Signer) (s : Signer) :
    ((signers.map (kept old)).find? fun o => o.pubKey = s.pubKey ∧ o.weight = s.weight) =
      (signers.find? fun o => o.pubKey = s.pubKey ∧ o.weight = s.weight).map (kept old) := by
  rw [List.find?_map]
  congr 2
  funext o
  rw [Function.comp_apply, (kept_same old o).1, (kept_same old o).2]

/-- A signer of the row has the type of the earliest of the versions that have it, without a break
and with the same weight. -/
theorem kept_rowAfter {id : AccountID} {r₀ : Option LedgerEntry} (hr : Row.At (.account id) r₀)
    {vs : List (BucketEntry LedgerEntry LedgerKey)} (hvs : ∀ m ∈ vs, Version (.account id) m)
    (s : Signer) :
    kept (signersOf (rowAfter r₀ vs)) s = earliest s (vs.map BucketEntry.live? ++ [r₀]) := by
  induction vs generalizing s with
  | nil =>
    show kept (signersOf r₀) s = _
    rw [kept, List.map_nil, List.nil_append, earliest]
    cases (signersOf r₀).find? fun o => o.pubKey = s.pubKey ∧ o.weight = s.weight <;> rfl
  | cons m vs ih =>
    have hvs' : ∀ m' ∈ vs, Version (.account id) m' := fun m' hm' =>
      hvs m' (List.mem_cons_of_mem _ hm')
    rcases (hvs m List.mem_cons_self).account with ⟨k, rfl⟩ | ⟨e, a, rfl, he, ha⟩
    · rfl
    · show kept (signersOf (write (rowAfter r₀ vs) (.LIVEENTRY e))) s = _
      rw [write_account (rowAfter_at hr hvs') he ha, signersOf_map, kept, find?_map_kept,
        List.map_cons, List.cons_append, earliest]
      have hsigners : signersOf (BucketEntry.live? (.LIVEENTRY e : BucketEntry _ LedgerKey)) =
          a.signers := by
        obtain ⟨lastModified, data⟩ := e
        obtain rfl : data = .account a := he
        rfl
      rw [hsigners]
      cases a.signers.find? fun o => o.pubKey = s.pubKey ∧ o.weight = s.weight with
      | none => rfl
      | some o => exact ih hvs' o

theorem earliest_eq_iff (s : Signer) (older : List (Option LedgerEntry)) :
    earliest s older = s ↔ (earliest s older).signerType = s.signerType := by
  obtain ⟨hkey, hweight⟩ := earliest_same s older
  constructor
  · intro h
    rw [h]
  · intro h
    generalize earliest s older = o at h hkey hweight
    cases o
    cases s
    simp_all

/-- **The row of an account is right** iff each signer has had its type for as long as its
weight. -/
theorem rowAfter_account_iff {id : AccountID} {r₀ : Option LedgerEntry}
    (hr : Row.At (.account id) r₀) {e : LedgerEntry}
    {older : List (BucketEntry LedgerEntry LedgerKey)}
    (hvs : ∀ m ∈ .LIVEENTRY e :: older, Version (.account id) m) :
    rowAfter r₀ (.LIVEENTRY e :: older) = some (stored e) ↔
      ∀ s ∈ signersOf (some e),
        (earliest s (older.map BucketEntry.live? ++ [r₀])).signerType = s.signerType := by
  have holder : ∀ m ∈ older, Version (.account id) m := fun m hm =>
    hvs m (List.mem_cons_of_mem _ hm)
  rcases (hvs _ List.mem_cons_self).account with ⟨k, hk⟩ | ⟨e', a, he', he, ha⟩
  · cases hk
  · cases he'
    obtain ⟨lastModified, data⟩ := e
    obtain rfl : data = .account a := he
    have hrow : rowAfter r₀ (.LIVEENTRY ⟨lastModified, .account a⟩ :: older) =
        some ⟨lastModified, .account { a with
          signers := a.signers.map (kept (signersOf (rowAfter r₀ older))) }⟩ :=
      write_account (rowAfter_at hr holder) rfl ha
    have hkept : a.signers.map (kept (signersOf (rowAfter r₀ older))) = a.signers ↔
        ∀ s ∈ a.signers, kept (signersOf (rowAfter r₀ older)) s = s := by
      conv_lhs => rhs; rw [← List.map_id a.signers]
      exact List.map_inj_left
    have hentry : rowAfter r₀ (.LIVEENTRY ⟨lastModified, .account a⟩ :: older) =
        some (stored ⟨lastModified, .account a⟩) ↔
          a.signers.map (kept (signersOf (rowAfter r₀ older))) = a.signers := by
      rw [hrow]
      cases a
      simp [stored]
    rw [hentry, hkept]
    refine forall₂_congr fun s _ => ?_
    rw [kept_rowAfter hr holder, earliest_eq_iff]

/-- Reversed payments are never changed. -/
theorem rowAfter_reversedPayment {r₀ : Option LedgerEntry} {e : LedgerEntry}
    {rp : ReversedPaymentEntry} (he : e.data = .reversedPayment rp) (hr : ∀ e' ∈ r₀, e' = e)
    {vs : List (BucketEntry LedgerEntry LedgerKey)} (hvs : ∀ m ∈ vs, ∀ e' ∈ m.live?, e' = e) :
    ∀ e' ∈ rowAfter r₀ vs, e' = e := by
  induction vs with
  | nil => exact hr
  | cons m vs ih =>
    have ih := ih fun m' hm' => hvs m' (List.mem_cons_of_mem _ hm')
    intro e' he'
    cases m with
    | DEADENTRY k => cases he'
    | LIVEENTRY e₁ =>
      obtain rfl : e₁ = e := hvs _ List.mem_cons_self e₁ rfl
      have hrow : some (writeOver e₁ (rowAfter r₀ vs)) = some e' := he'
      obtain rfl := Option.some.inj hrow
      cases hold : rowAfter r₀ vs with
      | none =>
        obtain ⟨lastModified, data⟩ := e₁
        obtain rfl : data = .reversedPayment rp := he
        rfl
      | some old =>
        obtain ⟨lastModified, data⟩ := e₁
        obtain rfl : data = .reversedPayment rp := he
        exact ih old hold

/-! ## The views of the two lists -/

section Views

variable {bl remote : BucketList LedgerEntry LedgerKey}

/-- The buckets that are not applied are in both lists. -/
theorem buckets_split (bl remote : BucketList LedgerEntry LedgerKey) :
    ∃ common, remote.buckets.reverse = common ++ appliedBuckets bl remote ∧
      ∀ b ∈ common, b ∈ bl.buckets := by
  obtain ⟨ps, hps⟩ : ∃ ps, ps = bl.buckets.reverse.zip remote.buckets.reverse := ⟨_, rfl⟩
  refine ⟨(ps.takeWhile fun p => p.1 = p.2).map (·.2), ?_, ?_⟩
  · have hsnd : remote.buckets.reverse = ps.map (·.2) := by
      rw [hps]
      exact (List.map_snd_zip (by simp [length_buckets])).symm
    rw [appliedBuckets, ← hps, ← List.map_append, List.takeWhile_append_dropWhile]
    exact hsnd
  · intro b hb
    obtain ⟨p, hp, rfl⟩ := List.mem_map.mp hb
    have heq : p.1 = p.2 := by simpa using List.mem_takeWhile_imp hp
    have hmem : p ∈ ps := (List.takeWhile_prefix _).subset hp
    rw [← heq]
    rw [hps] at hmem
    exact List.mem_reverse.mp (List.of_mem_zip hmem).1

theorem mem_remote_of_applied {b : Bucket LedgerEntry LedgerKey}
    (hb : b ∈ appliedBuckets bl remote) : b ∈ remote.buckets := by
  obtain ⟨common, hsplit, -⟩ := buckets_split bl remote
  rw [← List.mem_reverse, hsplit]
  exact List.mem_append_right _ hb

/-- The newest version decides. -/
theorem view_of_versions {k : LedgerKey} {m : BucketEntry LedgerEntry LedgerKey}
    {older : List (BucketEntry LedgerEntry LedgerKey)}
    (h : (versions bl remote k).reverse = m :: older) : remote.view k = m.live? := by
  obtain ⟨common, hsplit, -⟩ := buckets_split bl remote
  have hbuckets : remote.buckets = (appliedBuckets bl remote).reverse ++ common.reverse := by
    rw [← List.reverse_reverse remote.buckets, hsplit, List.reverse_append]
  have hfirst : ((appliedBuckets bl remote).reverse.findSome? fun b => b.find k) = some m := by
    rw [← List.head?_filterMap, List.filterMap_reverse]
    rw [versions] at h
    rw [h]
    rfl
  rw [BucketList.view, hbuckets, List.findSome?_append, hfirst]
  rfl

/-- An entry of which there is no version among the applied buckets is in the local list too. -/
theorem mem_local_of_no_versions {k : LedgerKey} {e : LedgerEntry} (h : versions bl remote k = [])
    (hview : remote.view k = some e) : ∃ b ∈ bl.buckets, .LIVEENTRY e ∈ b.entries := by
  obtain ⟨common, hsplit, hcommon⟩ := buckets_split bl remote
  have hbuckets : remote.buckets = (appliedBuckets bl remote).reverse ++ common.reverse := by
    rw [← List.reverse_reverse remote.buckets, hsplit, List.reverse_append]
  have hnone : ((appliedBuckets bl remote).reverse.findSome? fun b => b.find k) = none := by
    rw [← List.head?_filterMap, List.filterMap_reverse]
    rw [versions] at h
    rw [h]
    rfl
  rw [BucketList.view, hbuckets, List.findSome?_append, hnone, Option.none_or] at hview
  obtain ⟨m, hm, hlive⟩ := Option.bind_eq_some_iff.mp hview
  obtain ⟨b, hb, hfind⟩ := List.exists_of_findSome?_eq_some hm
  obtain rfl : m = .LIVEENTRY e := by
    cases m with
    | DEADENTRY k => cases hlive
    | LIVEENTRY e' => rw [Option.some.inj hlive]
  exact ⟨b, hcommon b (List.mem_reverse.mp hb), (Bucket.find_eq_some_iff.mp hfind).1⟩

end Views

/-! ## Histories -/

/-- What the ledgers of a history promise. The number of an offer is of one seller, entries carry
the ledger that changed them, and a payment is reversed once. -/
structure History (owner : ℕ → AccountID) (batches : List (Batch LedgerEntry LedgerKey)) : Prop where
  distinct : ∀ batch ∈ batches, batch.Distinct
  valid : ∀ batch ∈ batches, ∀ e ∈ batch.liveEntries, Valid e
  ownedLive : ∀ batch ∈ batches, ∀ e ∈ batch.liveEntries, Owned owner (LedgerEntryKey e)
  ownedDead : ∀ batch ∈ batches, ∀ k ∈ batch.deadEntries, Owned owner k
  stamped : ∀ i batch, batches[i]? = some batch →
    ∀ e ∈ batch.liveEntries, e.lastModifiedLedgerSeq = i + 1
  reversedOnce : ∀ batch ∈ batches, ∀ batch' ∈ batches, ∀ e ∈ batch.liveEntries,
    ∀ e' ∈ batch'.liveEntries, ∀ rp, e.data = .reversedPayment rp → e'.data = .reversedPayment rp →
      e = e'

section History

variable {batches : List (Batch LedgerEntry LedgerKey)}

theorem mem_of_find_live {batch : Batch LedgerEntry LedgerKey} {k : LedgerKey} {e : LedgerEntry}
    (h : batch.find k = some (.LIVEENTRY e)) : e ∈ batch.liveEntries := by
  rw [Batch.find] at h
  split at h
  · cases h
  · obtain ⟨e', he', heq⟩ := Option.map_eq_some_iff.mp h
    cases heq
    exact List.mem_of_find?_eq_some he'

theorem History.take (h : History owner batches) (n : ℕ) : History owner (batches.take n) where
  distinct batch hb := h.distinct batch (List.mem_of_mem_take hb)
  valid batch hb := h.valid batch (List.mem_of_mem_take hb)
  ownedLive batch hb := h.ownedLive batch (List.mem_of_mem_take hb)
  ownedDead batch hb := h.ownedDead batch (List.mem_of_mem_take hb)
  stamped i batch hi := by
    refine h.stamped i batch ?_
    rw [List.getElem?_take] at hi
    split at hi
    · exact hi
    · cases hi
  reversedOnce batch hb batch' hb' :=
    h.reversedOnce batch (List.mem_of_mem_take hb) batch' (List.mem_of_mem_take hb')

/-- The entries of a batch can be applied. -/
theorem History.applicable (h : History owner batches) {m : BucketEntry LedgerEntry LedgerKey}
    (hm : FromBatch batches m) : Applicable owner m := by
  obtain ⟨batch, hbatch, hfind⟩ := hm
  cases m with
  | LIVEENTRY e =>
    have hmem := mem_of_find_live hfind
    refine ⟨?_, h.ownedLive batch hbatch e hmem⟩
    rintro e' ⟨rfl⟩
    exact h.valid batch hbatch e hmem
  | DEADENTRY k =>
    refine ⟨nofun, h.ownedDead batch hbatch k ?_⟩
    rw [Batch.find] at hfind
    split at hfind
    · assumption
    · obtain ⟨e', -, heq⟩ := Option.map_eq_some_iff.mp hfind
      cases heq

/-- An entry that was last changed before a ledger was there after it. -/
theorem History.ledgerAfter_take (h : History owner batches) {k : LedgerKey} {e : LedgerEntry}
    {n : ℕ} (he : e.lastModifiedLedgerSeq ≤ n) (hafter : ledgerAfter batches k = some e) :
    ledgerAfter (batches.take n) k = some e := by
  induction batches using List.reverseRecOn with
  | nil => simpa using hafter
  | append_singleton batches batch ih =>
    by_cases hn : batches.length < n
    · rw [List.take_of_length_le (by simp; omega)]
      exact hafter
    · rw [List.take_append_of_le_length (by omega)]
      have hearlier : History owner batches := by
        have htake := h.take batches.length
        rwa [List.take_left' rfl] at htake
      refine ih hearlier ?_
      have hstep : ledgerAfter (batches ++ [batch]) k =
          ((batch.find k).map BucketEntry.live?).getD (ledgerAfter batches k) := by
        simp [ledgerAfter]
      rw [hstep] at hafter
      cases hfind : batch.find k with
      | none =>
        rw [hfind] at hafter
        exact hafter
      | some m =>
        rw [hfind] at hafter
        cases m with
        | DEADENTRY k => cases hafter
        | LIVEENTRY e' =>
          -- this ledger would have changed it
          obtain rfl : e' = e := Option.some.inj hafter
          have hstamp := h.stamped batches.length batch (by simp) e' (mem_of_find_live hfind)
          omega

end History

/-! ## Catching up -/

/-- Of every entry that is gone from the later ledger there is a version in the applied buckets. -/
def DeletionsApplied (bl remote : BucketList LedgerEntry LedgerKey) : Prop :=
  ∀ k, bl.view k ≠ none → remote.view k = none → versions bl remote k ≠ []

/-- Each signer of the newest version of an account has had its type for as long as its weight,
going back through the versions in the applied buckets to the local entry. -/
def SignerTypesKept (bl remote : BucketList LedgerEntry LedgerKey) : Prop :=
  ∀ id e older, (versions bl remote (.account id)).reverse = .LIVEENTRY e :: older →
    ∀ s ∈ signersOf (some e),
      (earliest s (older.map BucketEntry.live? ++ [bl.view (.account id)])).signerType = s.signerType

section Catchup

variable {batches : List (Batch LedgerEntry LedgerKey)} {bl remote : BucketList LedgerEntry LedgerKey}

/-- What a list shows is an entry of a batch. -/
theorem fromBatch_view (hfrom : ListFrom (FromBatch batches) bl) {k : LedgerKey} {e : LedgerEntry}
    (hview : bl.view k = some e) :
    FromBatch batches (.LIVEENTRY e) ∧ LedgerEntryKey e = k := by
  obtain ⟨m, hm, hlive⟩ := Option.bind_eq_some_iff.mp hview
  obtain ⟨b, hb, hfind⟩ := List.exists_of_findSome?_eq_some hm
  cases m with
  | DEADENTRY k => cases hlive
  | LIVEENTRY e' =>
    cases hlive
    obtain ⟨hmem, hkey⟩ := Bucket.find_eq_some_iff.mp hfind
    exact ⟨hfrom.of_mem_buckets hb _ hmem, hkey⟩

theorem wellKept_of_holds (h : History owner batches) (hfrom : ListFrom (FromBatch batches) bl)
    (hdb : Holds db bl.view) : WellKept owner db := by
  constructor
  · intro k e he
    rw [hdb k] at he
    obtain ⟨e', he', rfl⟩ := Option.map_eq_some_iff.mp he
    rw [stored_key]
    exact (fromBatch_view hfrom he').2
  · intro id r hr
    have hrow : row db (.offer r.entry.sellerID id) = some ⟨r.lastmodified, .offer r.entry⟩ := by
      simp [row, hr]
    rw [hdb] at hrow
    obtain ⟨e, he, -⟩ := Option.map_eq_some_iff.mp hrow
    obtain ⟨hbatch, hkey⟩ := fromBatch_view hfrom he
    have howned : Owned owner (LedgerEntryKey e) := (h.applicable hbatch).owned
    rw [hkey] at howned
    exact howned

/-- The versions of a key are from the batches. -/
theorem mem_versions (hfrom : ListFrom (FromBatch batches) remote) {k : LedgerKey}
    {m : BucketEntry LedgerEntry LedgerKey} (hm : m ∈ versions bl remote k) :
    FromBatch batches m ∧ m.key = k := by
  obtain ⟨b, hb, hfind⟩ := List.mem_filterMap.mp hm
  obtain ⟨hmem, hkey⟩ := Bucket.find_eq_some_iff.mp hfind
  exact ⟨hfrom.of_mem_buckets (mem_remote_of_applied hb) m hmem, hkey⟩

/-- **One row.** If there is a version, and it is not that of an account, then the row is right. -/
theorem rowAfter_eq_stored (h : History owner batches)
    (hlocal : ListFrom (FromBatch batches) bl) (hfrom : ListFrom (FromBatch batches) remote)
    {k : LedgerKey} (hk : ∀ id, k ≠ .account id) {m : BucketEntry LedgerEntry LedgerKey}
    {older : List (BucketEntry LedgerEntry LedgerKey)}
    (hvs : (versions bl remote k).reverse = m :: older) :
    rowAfter ((bl.view k).map stored) (m :: older) = m.live?.map stored := by
  have hmem : ∀ m' ∈ m :: older, FromBatch batches m' ∧ m'.key = k := by
    intro m' hm'
    rw [← hvs, List.mem_reverse] at hm'
    exact mem_versions hfrom hm'
  cases m with
  | DEADENTRY k => rfl
  | LIVEENTRY e =>
    obtain ⟨⟨batch, hbatch, hfind⟩, hkey⟩ := hmem _ List.mem_cons_self
    obtain ⟨lastModified, data⟩ := e
    show some (writeOver _ (rowAfter _ older)) = some _
    cases data with
    | account a => exact absurd hkey.symm (hk _)
    | trustLine tl => rw [writeOver_eq_stored (by simp) (by simp)]
    | offer o => rw [writeOver_eq_stored (by simp) (by simp)]
    | data d => rw [writeOver_eq_stored (by simp) (by simp)]
    | reversedPayment rp =>
      have hself := mem_of_find_live hfind
      -- every other entry of the same key is this one
      have hsame : ∀ e', FromBatch batches (.LIVEENTRY e') → LedgerEntryKey e' = k →
          e' = ⟨lastModified, .reversedPayment rp⟩ := by
        rintro ⟨lastModified', data'⟩ ⟨batch', hbatch', hfind'⟩ hkey'
        refine h.reversedOnce batch' hbatch' batch hbatch _ (mem_of_find_live hfind') _ hself rp
          ?_ rfl
        rw [← hkey] at hkey'
        cases data' with
        | reversedPayment rp' =>
          have hid : rp'.rID = rp.rID := LedgerKey.reversedPayment.inj hkey'
          exact congrArg LedgerEntryData.reversedPayment (congrArg ReversedPaymentEntry.mk hid)
        | _ => cases hkey'
      have hrow := @rowAfter_reversedPayment ((bl.view k).map stored)
        ⟨lastModified, .reversedPayment rp⟩ rp rfl
        (by
          intro e' he'
          obtain ⟨e₁, he₁, rfl⟩ := Option.map_eq_some_iff.mp he'
          obtain ⟨hfrom₁, hkey₁⟩ := fromBatch_view hlocal he₁
          rw [hsame e₁ hfrom₁ hkey₁]
          rfl) older
        (by
          intro m' hm' e' he'
          cases m' with
          | DEADENTRY k => cases he'
          | LIVEENTRY e₁ =>
            obtain rfl : e₁ = e' := Option.some.inj he'
            exact hsame e₁ (hmem _ (List.mem_cons_of_mem _ hm')).1
              (hmem _ (List.mem_cons_of_mem _ hm')).2)
      cases hold : rowAfter ((bl.view k).map stored) older with
      | none => rfl
      | some old => rw [hrow old hold]; rfl

theorem row_at_account (h : History owner batches) (hlocal : ListFrom (FromBatch batches) bl)
    (id : AccountID) :
    Row.At (.account id) (bl.view (.account id)) := by
  cases hview : bl.view (.account id) with
  | none => exact ⟨nofun, List.Pairwise.nil⟩
  | some e =>
    obtain ⟨hbatch, hkey⟩ := fromBatch_view hlocal hview
    have hvalid : Valid e := (h.applicable hbatch).valid e rfl
    refine ⟨?_, ?_⟩
    · rintro e' ⟨rfl⟩
      exact hkey
    · obtain ⟨lastModified, data⟩ := e
      cases data with
      | account a => exact hvalid.2
      | _ => cases hkey

theorem map_stored_account (hlocal : ListFrom (FromBatch batches) bl) (id : AccountID) :
    (bl.view (.account id)).map stored = bl.view (.account id) := by
  cases hview : bl.view (.account id) with
  | none => rfl
  | some e =>
    obtain ⟨-, hkey⟩ := fromBatch_view hlocal hview
    obtain ⟨lastModified, data⟩ := e
    cases data with
    | account a => rfl
    | _ => cases hkey

/-- An entry without versions in the applied buckets is as it was, or gone. -/
theorem view_of_no_versions (h : History owner batches) {n : ℕ}
    (hlocal : ListFrom (FromBatch (batches.take n)) bl)
    (hview : ∀ k, bl.view k = ledgerAfter (batches.take n) k)
    (hview' : ∀ k, remote.view k = ledgerAfter batches k) {k : LedgerKey} {e : LedgerEntry}
    (hvs : versions bl remote k = []) (he : remote.view k = some e) : bl.view k = some e := by
  obtain ⟨b, hb, hmem⟩ := mem_local_of_no_versions hvs he
  obtain ⟨batch, hbatch, hfind⟩ := hlocal.of_mem_buckets hb _ hmem
  obtain ⟨i, hi, rfl⟩ := List.mem_iff_getElem.mp hbatch
  have hstamp := (h.take n).stamped i _ (List.getElem?_eq_getElem hi) e (mem_of_find_live hfind)
  rw [hview]
  refine h.ledgerAfter_take ?_ ((hview' k).symm.trans he)
  rw [List.length_take] at hi
  omega

/-- **Catching up reproduces the later ledger** iff no deletion is missed, and no signer keeps the
type it had before. -/
theorem applyBuckets_iff {hash : Bucket LedgerEntry LedgerKey → Hash}
    {getBucket : Hash → Option (Bucket LedgerEntry LedgerKey)} (h : History owner batches)
    (hlen : batches.length < 2 ^ 32) (n : ℕ) (ready ready' : ℕ → ℕ → Bool)
    (hbl : runBatches ready (batches.take n) = .ok bl)
    (hremote : runBatches ready' batches = .ok remote) (resolved : ℕ → Bool)
    (hget : ∀ b ∈ remote.buckets, getBucket (hash b) = some b)
    (hinj : ∀ b ∈ bl.buckets, ∀ b' ∈ remote.buckets, hash b' = hash b → b = b')
    (hdb : Holds db bl.view) :
    ∃ db', applyBuckets hash getBucket (remote.saveState hash resolved) bl db = some db' ∧
      (Holds db' remote.view ↔ DeletionsApplied bl remote ∧ SignerTypesKept bl remote) := by
  have hlen' : (batches.take n).length < 2 ^ 32 := by
    rw [List.length_take]
    omega
  have hlocal₀ := listFrom_runBatches ready hlen' (h.take n).distinct hbl
  have hlocal : ListFrom (FromBatch batches) bl := by
    refine hlocal₀.mono ?_
    rintro m ⟨batch, hbatch, hfind⟩
    exact ⟨batch, List.mem_of_mem_take hbatch, hfind⟩
  have hfrom := listFrom_runBatches ready' hlen h.distinct hremote
  obtain ⟨bl₁, hbl₁, -, hview⟩ := runBatches_spec ready hlen' (h.take n).distinct
  obtain rfl : bl₁ = bl := Except.ok.inj (hbl₁.symm.trans hbl)
  obtain ⟨remote₁, hremote₁, -, hview'⟩ := runBatches_spec ready' hlen h.distinct
  obtain rfl : remote₁ = remote := Except.ok.inj (hremote₁.symm.trans hremote)
  have hwell : WellKept owner db := wellKept_of_holds h hlocal hdb
  obtain ⟨db', hrun, -, hrow⟩ := @applyAll_spec _ _ (appliedBuckets bl₁ remote₁) hwell
    (fun b hb m hm => h.applicable (hfrom.of_mem_buckets (mem_remote_of_applied hb) m hm))
  refine ⟨db', ?_, ?_⟩
  · rw [applyBuckets_eq resolved hget hinj]
    exact hrun
  have hrow : ∀ k, row db' k = rowAfter ((bl₁.view k).map stored) (versions bl₁ remote₁ k).reverse := by
    intro k
    rw [hrow, rowAfter_reverse, hdb k]
    rfl
  have haccount : ∀ id e older, (versions bl₁ remote₁ (.account id)).reverse = .LIVEENTRY e :: older →
      (row db' (.account id) = some (stored e) ↔ ∀ s ∈ signersOf (some e),
        (earliest s (older.map BucketEntry.live? ++ [bl₁.view (.account id)])).signerType =
          s.signerType) := by
    intro id e older hvs
    rw [hrow, hvs, map_stored_account hlocal]
    refine rowAfter_account_iff (row_at_account h hlocal id) ?_
    intro m hm
    rw [← hvs, List.mem_reverse] at hm
    obtain ⟨hbatch, hkey⟩ := mem_versions hfrom hm
    exact ⟨hkey, (h.applicable hbatch).valid⟩
  constructor
  · intro hholds
    constructor
    · intro k hsome hnone hvs
      have hk := hholds k
      rw [hrow, hvs, hnone] at hk
      exact hsome (Option.map_eq_none_iff.mp hk)
    · intro id e older hvs
      refine (haccount id e older hvs).mp ?_
      rw [hholds, view_of_versions hvs]
      rfl
  · rintro ⟨hdel, htypes⟩ k
    cases hvs : (versions bl₁ remote₁ k).reverse with
    | nil =>
      -- the row stays
      have hnil : versions bl₁ remote₁ k = [] := List.reverse_eq_nil_iff.mp hvs
      rw [hrow, hvs]
      show (bl₁.view k).map stored = _
      cases hremote : remote₁.view k with
      | some e => rw [view_of_no_versions h hlocal₀ hview hview' hnil hremote]
      | none =>
        by_cases hnone : bl₁.view k = none
        · rw [hnone]
        · exact absurd hnil (hdel k hnone hremote)
    | cons m older =>
      rw [view_of_versions hvs]
      by_cases hk : ∃ id, k = .account id
      · obtain ⟨id, rfl⟩ := hk
        cases m with
        | DEADENTRY k' =>
          rw [hrow, hvs]
          rfl
        | LIVEENTRY e => exact (haccount id e older hvs).mpr (htypes id e older hvs)
      · rw [hrow, hvs]
        exact rowAfter_eq_stored h hlocal hfrom (fun id hid => hk ⟨id, hid⟩) hvs

end Catchup

section Example

/-- An account with one signer. -/
def withSigner (ledger signerType : ℕ) : LedgerEntry :=
  ⟨ledger, .account { accountID := 7, numSubEntries := 1, signers := [⟨1, 1, signerType⟩] }⟩

/-- In the second ledger the signer is removed, and added again with another type. -/
def retyped : List (Batch LedgerEntry LedgerKey) :=
  [⟨[withSigner 1 0], []⟩, ⟨[withSigner 2 1], []⟩]

/-- The database after the first ledger. -/
def firstLedger : Database :=
  { accounts := (∅ : Table AccountID (Row AccountEntry)).insert 7
      ⟨{ accountID := 7, numSubEntries := 1, signers := [⟨1, 1, 0⟩] }, 1⟩ }

def retypedBuckets : List (Bucket LedgerEntry LedgerKey) :=
  [{}, ⟨[.LIVEENTRY (withSigner 1 0)], List.pairwise_singleton _ _⟩,
    ⟨[.LIVEENTRY (withSigner 2 1)], List.pairwise_singleton _ _⟩]

theorem holds_firstLedger {bl : BucketList LedgerEntry LedgerKey}
    (hbl : runBatches (fun _ _ => true) (retyped.take 1) = .ok bl) : Holds firstLedger bl.view := by
  have hlen : (retyped.take 1).length < 2 ^ 32 := by decide
  obtain ⟨bl₁, hbl₁, -, hview⟩ := runBatches_spec (fun _ _ => true) hlen (by decide)
  obtain rfl : bl₁ = bl := Except.ok.inj (hbl₁.symm.trans hbl)
  intro k
  rw [hview]
  by_cases hk : k = .account 7
  · subst hk
    decide +kernel
  · have hnone : ledgerAfter (retyped.take 1) k = none := by
      have hne : ¬ Keyed.key (withSigner 1 0) = k := fun heq => hk heq.symm
      simp [ledgerAfter, retyped, Batch.find, hne]
    have hrow : row firstLedger k = none := by
      cases k with
      | account id =>
        have hne : ¬ 7 = id := fun heq => hk (heq ▸ rfl)
        simp [row, firstLedger, hne]
      | _ => simp [row, firstLedger]
    rw [hnone, hrow]
    rfl

/-- The signer of the row keeps the type it had. -/
theorem applyBuckets_keeps_type : ∃ bl remote : BucketList LedgerEntry LedgerKey, ∃ db',
    runBatches (fun _ _ => true) (retyped.take 1) = .ok bl ∧
    runBatches (fun _ _ => true) retyped = .ok remote ∧
    Holds firstLedger bl.view ∧
    applyBuckets retypedBuckets.idxOf (fun h => retypedBuckets[h]?)
      (remote.saveState retypedBuckets.idxOf fun _ => true) bl firstLedger = some db' ∧
    row db' (.account 7) = some (withSigner 2 0) ∧ remote.view (.account 7) = some (withSigner 2 1) ∧
    ¬ Holds db' remote.view := by
  have h : (do
      let bl ← (runBatches (fun _ _ => true) (retyped.take 1)).toOption
      let remote ← (runBatches (fun _ _ => true) retyped).toOption
      let db ← applyBuckets retypedBuckets.idxOf (fun h => retypedBuckets[h]?)
        (remote.saveState retypedBuckets.idxOf fun _ => true) bl firstLedger
      pure (row db (.account 7), remote.view (.account 7))) =
        some (some (withSigner 2 0), some (withSigner 2 1)) := by decide +kernel
  simp only [bind, Option.bind_eq_some_iff, pure, Option.some.injEq, Prod.mk.injEq] at h
  obtain ⟨bl, hbl, remote, hremote, db', hrun, hrow, hview⟩ := h
  refine ⟨bl, remote, db', toOption_eq_some hbl, toOption_eq_some hremote,
    holds_firstLedger (toOption_eq_some hbl), hrun, hrow, hview, ?_⟩
  intro hholds
  have hk := hholds (.account 7)
  rw [hrow, hview] at hk
  exact absurd hk (by decide)

theorem history_retyped : History (fun _ => 0) retyped where
  distinct := by decide
  valid := by
    intro batch hbatch e he
    simp only [retyped, List.mem_cons, List.not_mem_nil, or_false] at hbatch
    rcases hbatch with rfl | rfl
    · rw [List.mem_singleton.mp he]
      exact ⟨by decide, by decide⟩
    · rw [List.mem_singleton.mp he]
      exact ⟨by decide, by decide⟩
  ownedLive := by
    intro batch hbatch e he
    simp only [retyped, List.mem_cons, List.not_mem_nil, or_false] at hbatch
    rcases hbatch with rfl | rfl
    · rw [List.mem_singleton.mp he]
      trivial
    · rw [List.mem_singleton.mp he]
      trivial
  ownedDead := by
    intro batch hbatch k hk
    simp only [retyped, List.mem_cons, List.not_mem_nil, or_false] at hbatch
    rcases hbatch with rfl | rfl <;> cases hk
  stamped := by
    intro i batch hi e he
    match i with
    | 0 | 1 =>
      cases hi
      rw [List.mem_singleton.mp he]
      rfl
    | _ + 2 => cases hi
  reversedOnce := by
    intro batch hbatch batch' _ e he e' _ rp hdata
    simp only [retyped, List.mem_cons, List.not_mem_nil, or_false] at hbatch
    rcases hbatch with rfl | rfl
    · rw [List.mem_singleton.mp he] at hdata
      cases hdata
    · rw [List.mem_singleton.mp he] at hdata
      cases hdata

/-- Whether the later ledger is reproduced depends on the signer. -/
theorem applyBuckets_iff_retyped : ∃ bl remote : BucketList LedgerEntry LedgerKey, ∃ db',
    applyBuckets retypedBuckets.idxOf (fun h => retypedBuckets[h]?)
      (remote.saveState retypedBuckets.idxOf fun _ => true) bl firstLedger = some db' ∧
    (Holds db' remote.view ↔ DeletionsApplied bl remote ∧ SignerTypesKept bl remote) := by
  have h : (do
      let bl ← (runBatches (fun _ _ => true) (retyped.take 1)).toOption
      let remote ← (runBatches (fun _ _ => true) retyped).toOption
      pure (decide (∀ b ∈ bl.buckets ++ remote.buckets, b ∈ retypedBuckets))) = some true := by
    decide +kernel
  simp only [bind, Option.bind_eq_some_iff, pure, Option.some.injEq, decide_eq_true_eq] at h
  obtain ⟨bl, hbl, remote, hremote, hmem⟩ := h
  have hbl := toOption_eq_some hbl
  have hget : ∀ b ∈ bl.buckets ++ remote.buckets, retypedBuckets[retypedBuckets.idxOf b]? = some b :=
    fun b hb => List.getElem?_idxOf (hmem b hb)
  refine ⟨bl, remote, applyBuckets_iff history_retyped (by decide) 1 (fun _ _ => true)
    (fun _ _ => true) hbl (toOption_eq_some hremote) (fun _ => true)
    (fun b hb => hget b (List.mem_append_right _ hb)) ?_ (holds_firstLedger hbl)⟩
  intro b hb b' hb' heq
  have hb := hget b (List.mem_append_left _ hb)
  rw [← heq, hget b' (List.mem_append_right _ hb')] at hb
  exact (Option.some.inj hb).symm

end Example

end SmartCore.Buckets
