import SmartCore.Ledger.Columns

/-!
# Storing and loading

`EntryFrame` is the base of the frames: an entry is stored by the function of its kind, and
`checkAgainstDatabase` loads it again, without the cache, and compares. The scans of the live
entries of a bucket and of a delta check one entry after the other (`runInputs_check_iff`).

What was stored is loaded as it was if and only if nothing of it is lost (`stored_loads_iff`).
-/

namespace SmartCore.Ledger

open SmartCore.Transactions
open SmartCore.Crypto.PubKeyUtils (IsPublicKey)

/-! ## Loading -/

namespace EntryFrame

def readDatabase (key : LedgerKey) : LedgerM (Option LedgerEntry) := do
  match (← get).db.read key with
  | .ok p => return p
  | .error e => throw e

/-- `storeLoad`: accounts and trust lines are looked up in the cache. -/
def storeLoad (key : LedgerKey) : LedgerM (Option LedgerEntry) := do
  match key with
  | .account _ =>
    match ← getCachedEntry key with
    | some p => return p
    | none =>
      let p ← readDatabase key
      putCachedEntry key p
      return p
  | .trustLine _ asset =>
    if asset = .native then throw (.exception "XLM TrustLine?")
    else
      match ← getCachedEntry key with
      | some p =>
        assertion ((p.bind TrustFrame.ofEntry).all (·.isValid))
        return p
      | none =>
        let p ← readDatabase key
        putCachedEntry key p
        return p
  | _ => readDatabase key

/-- A load that bypasses the cache. -/
def loadFromDatabase (key : LedgerKey) : LedgerM (Option LedgerEntry) := do
  flushCachedEntry key
  storeLoad key

def checkAgainstDatabase (entry : LedgerEntry) : LedgerM Unit := do
  match ← loadFromDatabase (LedgerEntryKey entry) with
  | none => throw .abort
  | some fromDb =>
    if fromDb ≠ entry then throw (.exception "Inconsistent state between objects: ")

variable {s t : LedgerState} {key : LedgerKey} {entry : LedgerEntry}

theorem lookup_eraseCached (cache : List (LedgerKey × Option LedgerEntry)) (k : LedgerKey) :
    (eraseCached cache k).lookup k = none := by
  rw [List.lookup_eq_none_iff]
  intro p hp
  have hne : p.1 ≠ k := (mem_eraseCached.mp hp).2
  simpa using hne.symm

/-- A key of a trust line in the native asset is refused. -/
def Refused (key : LedgerKey) : Prop := ∃ accountID, key = .trustLine accountID .native

theorem wp_readDatabase :
    wp (readDatabase key) (fun p t => t = s ∧ s.db.read key = .ok p)
      (fun e _ => s.db.read key = .error e) s := by
  simp only [readDatabase, wp_bind, wp_get]
  cases s.db.read key with
  | ok p => exact ⟨rfl, rfl⟩
  | error e => rfl

/-- **A load that bypasses the cache** reads the tables. -/
theorem wp_loadFromDatabase :
    wp (loadFromDatabase key)
      (fun p u => ¬ Refused key ∧ s.db.read key = .ok p ∧ u.db = s.db)
      (fun e _ => Refused key ∨ s.db.read key = .error e) s := by
  simp only [loadFromDatabase, flushCachedEntry, wp_bind, wp_modify]
  have hread : wp (do let p ← readDatabase key; putCachedEntry key p; return p)
      (fun p u => s.db.read key = .ok p ∧ u.db = s.db)
      (fun e _ => Refused key ∨ s.db.read key = .error e)
      { s with mEntryCache := eraseCached s.mEntryCache key } := by
    rw [wp_bind]
    refine wp_mono wp_readDatabase (fun p u hp => ?_) fun _ _ he => Or.inr he
    obtain ⟨rfl, hp⟩ := hp
    simp only [putCachedEntry, wp_bind, wp_modify, wp_pure]
    exact ⟨hp, trivial⟩
  have hcached : wp (getCachedEntry key)
      (fun p u => p = none ∧ u = { s with mEntryCache := eraseCached s.mEntryCache key })
      (fun e _ => Refused key ∨ s.db.read key = .error e)
      { s with mEntryCache := eraseCached s.mEntryCache key } := by
    simp only [getCachedEntry, wp_bind, wp_get, lookup_eraseCached, wp_pure, and_self]
  have huncached : wp (readDatabase key) (fun p u => s.db.read key = .ok p ∧ u.db = s.db)
      (fun e _ => Refused key ∨ s.db.read key = .error e)
      { s with mEntryCache := eraseCached s.mEntryCache key } := by
    refine wp_mono wp_readDatabase (fun p u hp => ?_) fun _ _ he => Or.inr he
    obtain ⟨rfl, hp⟩ := hp
    exact ⟨hp, rfl⟩
  cases key with
  | account accountID =>
    simp only [storeLoad]
    rw [wp_bind]
    refine wp_mono hcached (fun p u hp => ?_) fun _ _ he => he
    obtain ⟨rfl, rfl⟩ := hp
    exact wp_mono hread (fun _ _ h => ⟨by simp [Refused], h⟩) fun _ _ he => he
  | trustLine accountID asset =>
    simp only [storeLoad, wp_ite, wp_throw]
    refine ⟨fun hnative => Or.inl ⟨accountID, by rw [hnative]⟩, fun hnative => ?_⟩
    rw [wp_bind]
    refine wp_mono hcached (fun p u hp => ?_) fun _ _ he => he
    obtain ⟨rfl, rfl⟩ := hp
    refine wp_mono hread (fun _ _ h => ⟨?_, h⟩) fun _ _ he => he
    rintro ⟨_, hkey⟩
    exact hnative (LedgerKey.trustLine.inj hkey).2
  | offer sellerID offerID =>
    exact wp_mono huncached (fun _ _ h => ⟨by simp [Refused], h⟩) fun _ _ he => he
  | data accountID dataName =>
    exact wp_mono huncached (fun _ _ h => ⟨by simp [Refused], h⟩) fun _ _ he => he
  | reversedPayment rID =>
    exact wp_mono huncached (fun _ _ h => ⟨by simp [Refused], h⟩) fun _ _ he => he

/-- What the tables have is loaded. -/
theorem exists_load {p : Option LedgerEntry} (hkey : ¬ Refused key) (h : t.db.read key = .ok p) :
    ∃ u, loadFromDatabase key t = .ok p u := by
  have hload : wp (loadFromDatabase key) (fun p' _ => p' = p) (fun _ _ => False) t := by
    refine wp_mono wp_loadFromDatabase (fun p' _ hp => ?_) fun e _ he => ?_
    · have hp := hp.2.1
      rw [h] at hp
      exact (Except.ok.inj hp).symm
    · rcases he with he | he
      · exact hkey he
      · rw [h] at he
        cases he
  obtain ⟨p', u, hu, rfl⟩ := exists_of_wp hload
  exact ⟨u, hu⟩

theorem checkAgainstDatabase_of_load {fromDb : LedgerEntry} {u : LedgerState}
    (h : loadFromDatabase (LedgerEntryKey entry) t = .ok (some fromDb) u) :
    checkAgainstDatabase entry t =
      if fromDb ≠ entry then .error (.exception "Inconsistent state between objects: ") u
      else .ok () u := by
  unfold checkAgainstDatabase
  rw [bind_of_ok h]
  by_cases hne : fromDb ≠ entry
  · simp only [if_pos hne]
    rfl
  · simp only [if_neg hne]
    rfl

/-- An entry that the tables have passes the check. -/
theorem exists_check (hkey : ¬ Refused (LedgerEntryKey entry))
    (h : t.db.read (LedgerEntryKey entry) = .ok (some entry)) :
    ∃ u, checkAgainstDatabase entry t = .ok () u ∧ u.db = t.db := by
  obtain ⟨u, hu⟩ := exists_load hkey h
  have hp := of_wp_ok wp_loadFromDatabase hu
  refine ⟨u, ?_, hp.2.2⟩
  rw [checkAgainstDatabase_of_load hu, if_neg (not_not.mpr rfl)]

/-- The load and the comparison in one. -/
theorem loads_and_check_iff :
    ((∃ u, loadFromDatabase (LedgerEntryKey entry) t = .ok (some entry) u) ∧
        ∃ u, checkAgainstDatabase entry t = .ok () u) ↔
      ¬ Refused (LedgerEntryKey entry) ∧ t.db.read (LedgerEntryKey entry) = .ok (some entry) := by
  constructor
  · rintro ⟨⟨u, hu⟩, -⟩
    have hp := of_wp_ok wp_loadFromDatabase hu
    exact ⟨hp.1, hp.2.1⟩
  · intro h
    obtain ⟨v, hv, -⟩ := exists_check h.1 h.2
    exact ⟨exists_load h.1 h.2, v, hv⟩

end EntryFrame

/-! ## Storing -/

/-- Only `touch`: there is no statement for it. -/
def ReversedPaymentFrame.storeChange (d lastModified : ℕ) : LedgerM Unit := do
  let _ ← touch d lastModified

/-- A frame of any kind. -/
inductive EntryFrame where
  | account (f : AccountFrame)
  | trustLine (f : TrustFrame)
  | offer (f : OfferFrame)
  | data (f : DataFrame)
  | reversedPayment (rID : ℤ) (lastModified : ℕ)
deriving DecidableEq, Repr

namespace EntryFrame

/-- `getLastModified()` -/
def lastModified : EntryFrame → ℕ
  | account f => f.lastModified
  | trustLine f => f.lastModified
  | offer f => f.lastModified
  | data f => f.lastModified
  | reversedPayment _ lastModified => lastModified

/-- The entry of a frame that was touched in a ledger, or not. -/
def mEntry (ledgerSeq : ℕ) : EntryFrame → LedgerEntry
  | account f => ⟨ledgerSeq, .account f.mAccountEntry⟩
  | trustLine f => ⟨ledgerSeq, .trustLine f.mTrustLine⟩
  | offer f => ⟨ledgerSeq, .offer f.mOffer⟩
  | data f => ⟨ledgerSeq, .data f.mData⟩
  | reversedPayment rID _ => ⟨ledgerSeq, .reversedPayment ⟨rID⟩⟩

def storeAdd (d : ℕ) : EntryFrame → LedgerM Unit
  | account f => do let _ ← f.storeAdd d
  | trustLine f => do let _ ← f.storeAdd d
  | offer f => do let _ ← f.storeAdd d
  | data f => f.storeAdd d
  | reversedPayment rID lastModified => ReversedPaymentFrame.storeAdd d rID lastModified

def storeChange (d : ℕ) : EntryFrame → LedgerM Unit
  | account f => do let _ ← f.storeChange d
  | trustLine f => do let _ ← f.storeChange d
  | offer f => do let _ ← f.storeChange d
  | data f => f.storeChange d
  | reversedPayment _ lastModified => ReversedPaymentFrame.storeChange d lastModified

/-- The keys in the entry of a frame are public keys. -/
def PublicKeys : EntryFrame → Prop
  | account f => (∀ pk, f.mAccountEntry.inflationDest = some pk → IsPublicKey pk) ∧
    ∀ s ∈ f.mAccountEntry.signers, IsPublicKey s.pubKey
  | trustLine f => IsPublicKey f.mTrustLine.accountID ∧ IsPublicKey (getIssuer f.mTrustLine.asset)
  | offer f => OfferFrame.PublicKeys f.mOffer
  | data f => IsPublicKey f.mData.accountID
  | reversedPayment _ _ => True

end EntryFrame

namespace Database

variable (db : Database)

/-- The rows of the table of signers. -/
def signers (accountID : AccountID) : List Signer :=
  (db.accounts[accountID]?.map (·.entry.signers)).getD []

/-- The keys of the tables are unique, and in the columns of their rows. -/
structure WellFormed : Prop where
  signers : ∀ id, ((db.signers id).map (·.pubKey)).Pairwise (· < ·)
  signerKeys : ∀ id, ∀ s ∈ db.signers id, IsPublicKey s.pubKey
  trustlines : ∀ (k : LedgerKey) row, db.trustlines[k]? = some row →
    k = .trustLine row.entry.accountID row.entry.asset

end Database

/-- **What is not lost** when an entry is stored. Signers are loaded for accounts with sub-entries;
they are stored if they are marked as updated, and a row is written over if its weight changes. The
seller of an offer is not written over, the table of data has no `lastmodified`, and nothing is
written over in the table of reversed payments. `ledgerSeq` is what the entry has as its
`lastModifiedLedgerSeq`. -/
def EntryFrame.Lossless (insert : Bool) (ledgerSeq : ℕ) (db : Database) : EntryFrame → Prop
  | account f =>
    if f.mAccountEntry.numSubEntries = 0 then f.mAccountEntry.signers = []
    else if f.mUpdateSigners then
      ∀ s ∈ f.mAccountEntry.signers, ∀ row ∈ db.signers f.getID,
        row.pubKey = s.pubKey → row.weight = s.weight → row.signerType = s.signerType
    else f.mAccountEntry.signers = db.signers f.getID
  | trustLine _ => True
  | offer f => ∀ row, db.offers[f.mOffer.offerID]? = some row →
    row.entry.sellerID = f.mOffer.sellerID
  | data _ => ledgerSeq = 0
  | reversedPayment rID _ => insert ∨ db.reversedPayment[rID]? = some ledgerSeq

namespace AccountFrame

variable {f : AccountFrame} {s : LedgerState} {d : ℕ}

/-- What the signers are in the table after the account was stored. -/
def signersAfter (f : AccountFrame) (db : Database) : List Signer :=
  if f.mUpdateSigners then mergeSigners f.mAccountEntry.signers (db.signers f.getID)
  else db.signers f.getID

/-- An account that was stored. -/
structure Placed (f : AccountFrame) (ledgerSeq : ℕ) (db db' : Database) : Prop where
  valid : f.isValid = true
  nodup : f.mUpdateSigners = true → (f.mAccountEntry.signers.map (·.pubKey)).Nodup
  row : db'.accounts[f.getID]? =
    some ⟨{ f.mAccountEntry with signers := f.signersAfter db }, ledgerSeq⟩

/-- Both stores, after they have found the signers of the row, or none. -/
theorem placed_applySigners (row : Row AccountEntry) {t : LedgerState} {lastModified : ℕ}
    (hvalid : f.isValid = true) (hsigners : s.db.signers f.getID = row.entry.signers)
    (ht : t.db.accounts[f.getID]? =
      some ⟨{ f.mAccountEntry with signers := row.entry.signers }, lastModified⟩) :
    wp (runIf f.mUpdateSigners { f with lastModified }.applySigners)
      (fun _ u => f.Placed lastModified s.db u.db) (fun _ _ => True) t := by
  rw [wp_runIf]
  refine ⟨fun hupdate => ?_, fun hupdate => ?_⟩
  · have hafter : f.signersAfter s.db =
        mergeSigners f.mAccountEntry.signers row.entry.signers := by
      rw [signersAfter, if_pos hupdate, hsigners]
    have ht' : t.db.accounts[({ f with lastModified } : AccountFrame).getID]? =
        some ⟨{ f.mAccountEntry with signers := row.entry.signers }, lastModified⟩ := ht
    simp only [applySigners, flushCachedEntry, wp_bind, wp_get, ht', wp_ite, wp_throw, wp_modify,
      wp_pure]
    refine ⟨fun _ => trivial, fun hnodup => ⟨fun _ => ⟨hvalid, fun _ => not_not.mp hnodup, ?_⟩,
      fun hsame => ⟨hvalid, fun _ => not_not.mp hnodup, ?_⟩⟩⟩
    · rw [hafter]
      exact Std.ExtTreeMap.getElem?_insert_self
    · rw [hafter, not_not.mp hsame]
      exact ht
  · refine ⟨hvalid, fun h => absurd h hupdate, ?_⟩
    rw [signersAfter, if_neg hupdate, hsigners]
    exact ht

theorem wp_storeChange_placed :
    wp (f.storeChange d)
      (fun _ t => f.Placed ((s.deltas d).touchedSeq f.lastModified) s.db t.db)
      (fun _ _ => True) s := by
  simp only [storeChange, assertion, touch, flushCachedEntry, wp_bind, wp_require,
    wp_get, wp_modify, wp_pure]
  refine ⟨fun hvalid => ⟨fun _ => ?_, fun _ => trivial⟩, fun _ => trivial⟩
  cases hrow : s.db.accounts[f.mAccountEntry.accountID]? with
  | none =>
    simp only [getID, hrow, wp_throw]
  | some row =>
    simp only [getID, hrow, wp_bind, wp_modify, wp_updateDelta, wp_pure]
    refine ⟨fun δ _ => ?_, fun _ => trivial⟩
    refine placed_applySigners row hvalid ?_ Std.ExtTreeMap.getElem?_insert_self
    simp [Database.signers, getID, hrow]

theorem wp_storeAdd_placed :
    wp (f.storeAdd d)
      (fun _ t => f.Placed ((s.deltas d).touchedSeq f.lastModified) s.db t.db)
      (fun _ _ => True) s := by
  simp only [storeAdd, assertion, touch, flushCachedEntry, wp_bind, wp_require,
    wp_get, wp_modify, wp_pure]
  refine ⟨fun hvalid => ⟨fun _ => ?_, fun _ => trivial⟩, fun _ => trivial⟩
  cases hrow : s.db.accounts[f.mAccountEntry.accountID]? with
  | some row =>
    simp only [getID, hrow, wp_throw]
  | none =>
    simp only [getID, hrow, wp_bind, wp_modify, wp_updateDelta, wp_pure]
    refine ⟨fun δ _ => ?_, fun _ => trivial⟩
    refine placed_applySigners ⟨{ f.mAccountEntry with signers := [] }, 0⟩ hvalid ?_
      Std.ExtTreeMap.getElem?_insert_self
    simp [Database.signers, getID, hrow]

/-- A row is kept only if its type is the signer's. -/
def Agree (signers old : List Signer) : Prop :=
  ∀ s ∈ signers, ∀ row ∈ old, row.pubKey = s.pubKey → row.weight = s.weight →
    row.signerType = s.signerType

theorem map_mergeSigners (signers old : List Signer) :
    (mergeSigners signers old).map (·.pubKey) = signers.map (·.pubKey) := by
  induction signers generalizing old with
  | nil => rfl
  | cons s signers ih =>
    rw [mergeSigners]
    split
    · rw [List.map_cons, ih, List.map_cons]
    · split_ifs with hkey hweight
      · rw [List.map_cons, ih, List.map_cons]
      · rw [List.map_cons, ih, List.map_cons, hkey]
      · rw [List.map_cons, ih, List.map_cons]

/-- The rows before the first signer are deleted. -/
theorem agree_dropWhile {signers old : List Signer} {k : AccountID}
    (h : ∀ s ∈ signers, k ≤ s.pubKey) :
    Agree signers old ↔ Agree signers (old.dropWhile fun o => o.pubKey < k) := by
  constructor
  · exact fun hagree s hs row hrow => hagree s hs row ((List.dropWhile_sublist _).subset hrow)
  · intro hagree s hs row hrow hkey
    refine hagree s hs row ?_ hkey
    rw [← List.takeWhile_append_dropWhile (p := fun o : Signer => o.pubKey < k) (l := old),
      List.mem_append] at hrow
    refine hrow.resolve_left fun hbefore => ?_
    have hlt := List.all_eq_true.mp List.all_takeWhile row hbefore
    have hle := h s hs
    rw [← hkey] at hle
    exact absurd (of_decide_eq_true hlt) hle.not_gt

/-- A signer that has no row. -/
theorem agree_cons_of_lt {s : Signer} {signers old : List Signer}
    (h : ∀ row ∈ old, s.pubKey < row.pubKey) : Agree (s :: signers) old ↔ Agree signers old := by
  unfold Agree
  rw [List.forall_mem_cons]
  exact and_iff_right fun row hrow hkey => absurd hkey (h row hrow).ne'

/-- A signer and its row. -/
theorem agree_cons_cons {s o : Signer} {signers rest : List Signer} (hkey : s.pubKey = o.pubKey)
    (hsigners : ∀ s' ∈ signers, s.pubKey < s'.pubKey)
    (hrest : ∀ row ∈ rest, s.pubKey < row.pubKey) :
    Agree (s :: signers) (o :: rest) ↔
      (if s.weight ≠ o.weight then s else o) = s ∧ Agree signers rest := by
  have hsame : (if s.weight ≠ o.weight then s else o) = s ↔
      (o.weight = s.weight → o.signerType = s.signerType) := by
    split_ifs with hweight
    · exact ⟨fun _ heq => absurd heq.symm hweight, fun _ => rfl⟩
    · have hweight := not_not.mp hweight
      constructor
      · exact fun heq _ => by rw [heq]
      · intro htype
        cases s
        cases o
        simp_all
  rw [hsame]
  constructor
  · intro h
    refine ⟨h s List.mem_cons_self o List.mem_cons_self hkey.symm, fun s' hs' row hrow => ?_⟩
    exact h s' (List.mem_cons_of_mem _ hs') row (List.mem_cons_of_mem _ hrow)
  · rintro ⟨hfirst, h⟩ s' hs' row hrow hkey'
    rcases List.mem_cons.mp hs' with rfl | hs'
    · rcases List.mem_cons.mp hrow with rfl | hrow
      · exact hfirst
      · exact absurd hkey' (hrest row hrow).ne'
    · rcases List.mem_cons.mp hrow with rfl | hrow
      · exact absurd (hkey.trans hkey') (hsigners s' hs').ne
      · exact h s' hs' row hrow hkey'

/-- **The signers of an account are stored** if and only if the rows that are kept agree. -/
theorem mergeSigners_eq_iff {signers old : List Signer}
    (h : (signers.map (·.pubKey)).Pairwise (· < ·)) (hold : (old.map (·.pubKey)).Pairwise (· < ·)) :
    mergeSigners signers old = signers ↔ Agree signers old := by
  induction signers generalizing old with
  | nil => exact ⟨fun _ _ hmem => absurd hmem List.not_mem_nil, fun _ => rfl⟩
  | cons s signers ih =>
    rw [List.map_cons, List.pairwise_cons, List.forall_mem_map] at h
    obtain ⟨hlt, h⟩ := h
    have hle : ∀ s' ∈ s :: signers, s.pubKey ≤ s'.pubKey :=
      List.forall_mem_cons.mpr ⟨le_rfl, fun s' hs' => (hlt s' hs').le⟩
    rw [agree_dropWhile hle, mergeSigners]
    have hdrop : ((old.dropWhile fun o => o.pubKey < s.pubKey).map (·.pubKey)).Pairwise (· < ·) :=
      hold.sublist ((List.dropWhile_sublist _).map _)
    cases hcase : old.dropWhile fun o => o.pubKey < s.pubKey with
    | nil =>
      have hnone : ∀ l, Agree l [] := fun _ _ _ _ hrow => absurd hrow List.not_mem_nil
      have hnil : mergeSigners signers [] = signers := (ih h List.Pairwise.nil).mpr (hnone _)
      simp only [hnil, true_iff]
      exact hnone _
    | cons o rest =>
      rw [hcase, List.map_cons, List.pairwise_cons, List.forall_mem_map] at hdrop
      obtain ⟨hrest, hdrop⟩ := hdrop
      have hnot : s.pubKey ≤ o.pubKey := by
        have hne : old.dropWhile (fun o => decide (o.pubKey < s.pubKey)) ≠ [] :=
          hcase ▸ List.cons_ne_nil _ _
        have := List.head_dropWhile_not (fun o : Signer => decide (o.pubKey < s.pubKey)) hne
        simpa [hcase] using this
      have hafter : ∀ row ∈ rest, s.pubKey < row.pubKey := fun row hrow =>
        hnot.trans_lt (hrest row hrow)
      dsimp only
      by_cases hkey : s.pubKey = o.pubKey
      · rw [if_pos hkey, List.cons.injEq, ih h hdrop, agree_cons_cons hkey hlt hafter]
      · have hsorted : ((o :: rest).map (·.pubKey)).Pairwise (· < ·) :=
          List.pairwise_cons.mpr ⟨List.forall_mem_map.mpr hrest, hdrop⟩
        have hfirst : ∀ row ∈ o :: rest, s.pubKey < row.pubKey :=
          List.forall_mem_cons.mpr ⟨lt_of_le_of_ne hnot hkey, hafter⟩
        rw [if_neg hkey, List.cons.injEq, ih h hsorted, agree_cons_of_lt hfirst]
        exact and_iff_right rfl

/-- The keys of the signers of an account that was stored are in order. -/
theorem Placed.strict {ledgerSeq : ℕ} {db db' : Database} (h : f.Placed ledgerSeq db db')
    (hupdate : f.mUpdateSigners = true) :
    (f.mAccountEntry.signers.map (·.pubKey)).Pairwise (· < ·) := by
  have hvalid := h.valid
  simp only [isValid, Bool.decide_and, Bool.and_eq_true, decide_eq_true_eq] at hvalid
  exact (hvalid.2.2.and (h.nodup hupdate)).imp fun h => lt_of_le_of_ne h.1 h.2

/-- **An account is loaded as it was stored** if and only if nothing of it is lost. -/
theorem Placed.read_iff {insert : Bool} {ledgerSeq : ℕ} {db db' : Database}
    (h : f.Placed ledgerSeq db db') (hdb : db.WellFormed)
    (hkeys : (EntryFrame.account f).PublicKeys) :
    db'.read (.account f.getID) = .ok (some ⟨ledgerSeq, .account f.mAccountEntry⟩) ↔
      (EntryFrame.account f).Lossless insert ledgerSeq db := by
  have hvalid := h.valid
  simp only [isValid, Bool.decide_and, Bool.and_eq_true, decide_eq_true_eq] at hvalid
  have hmap : ∃ signers : List Signer, (f.signersAfter db).map (·.pubKey) = signers.map (·.pubKey) ∧
      (signers.map (·.pubKey)).Pairwise (· < ·) ∧ ∀ s ∈ signers, IsPublicKey s.pubKey := by
    unfold signersAfter
    by_cases hupdate : f.mUpdateSigners = true
    · rw [if_pos hupdate]
      exact ⟨_, map_mergeSigners _ _, h.strict hupdate, hkeys.2⟩
    · rw [if_neg hupdate]
      exact ⟨_, rfl, hdb.signers _, hdb.signerKeys _⟩
  obtain ⟨signers, hmap, hsorted, hpublic⟩ := hmap
  have hpublic' : ∀ s ∈ f.signersAfter db, IsPublicKey s.pubKey := by
    rw [← List.forall_mem_map (f := Signer.pubKey) (P := IsPublicKey), hmap, List.forall_mem_map]
    exact hpublic
  have hread := read_columns ⟨{ f.mAccountEntry with signers := f.signersAfter db }, ledgerSeq⟩ (by
      simp only [isValid, Bool.decide_and, Bool.and_eq_true, decide_eq_true_eq]
      refine ⟨hvalid.1, hvalid.2.1, ?_⟩
      rw [hmap]
      exact hsorted.imp fun hlt => hlt.le) hkeys.1 hpublic'
  have hdatabase : db'.read (.account f.getID) = .ok (some ⟨ledgerSeq, .account
      { f.mAccountEntry with signers :=
        if f.mAccountEntry.numSubEntries ≠ 0 then f.signersAfter db else [] }⟩) := by
    show (db'.accounts[f.getID]?).mapM _ = _
    rw [h.row]
    show some <$> read f.getID _ _ = _
    rw [show f.getID = f.mAccountEntry.accountID from rfl]
    exact congrArg (some <$> ·) hread
  have hentry : (⟨ledgerSeq, .account { f.mAccountEntry with signers :=
        if f.mAccountEntry.numSubEntries ≠ 0 then f.signersAfter db else [] }⟩ : LedgerEntry) =
      ⟨ledgerSeq, .account f.mAccountEntry⟩ ↔
      (if f.mAccountEntry.numSubEntries ≠ 0 then f.signersAfter db else []) =
        f.mAccountEntry.signers := by
    cases f.mAccountEntry
    simp
  rw [hdatabase, Except.ok.injEq, Option.some.injEq, hentry]
  show _ ↔ (if f.mAccountEntry.numSubEntries = 0 then f.mAccountEntry.signers = []
    else if f.mUpdateSigners then Agree f.mAccountEntry.signers (db.signers f.getID)
    else f.mAccountEntry.signers = db.signers f.getID)
  unfold signersAfter
  by_cases hzero : f.mAccountEntry.numSubEntries = 0
  · rw [if_pos hzero, if_neg (not_not.mpr hzero), eq_comm]
  · rw [if_neg hzero, if_pos hzero]
    by_cases hupdate : f.mUpdateSigners = true
    · rw [if_pos hupdate, if_pos hupdate]
      exact mergeSigners_eq_iff (h.strict hupdate) (hdb.signers _)
    · rw [if_neg hupdate, if_neg hupdate, eq_comm]

end AccountFrame

namespace TrustFrame

variable {f : TrustFrame} {s : LedgerState} {d : ℕ}

/-- A trust line that was stored. -/
structure Placed (f : TrustFrame) (ledgerSeq : ℕ) (db' : Database) : Prop where
  valid : f.isValid = true
  row : db'.trustlines[f.getKey]? = some ⟨f.mTrustLine, ledgerSeq⟩

theorem wp_storeAdd_placed :
    wp (f.storeAdd d)
      (fun _ t => f.Placed ((s.deltas d).touchedSeq f.lastModified) t.db) (fun _ _ => True) s := by
  simp only [storeAdd, assertion, touch, flushCachedEntry, wp_bind, wp_require,
    wp_get, wp_modify, wp_pure, wp_ite, wp_throw]
  refine ⟨fun _ => trivial, fun hvalid => ⟨fun _ => ?_, fun _ => trivial⟩⟩
  cases s.db.trustlines[({ f with
      lastModified := (s.deltas d).touchedSeq f.lastModified } : TrustFrame).getKey]? with
  | some row => exact trivial
  | none =>
    simp only [wp_bind, wp_modify, wp_updateDelta, wp_pure]
    exact ⟨fun δ _ => ⟨by simpa using hvalid, Std.ExtTreeMap.getElem?_insert_self⟩,
      fun _ => trivial⟩

theorem wp_storeChange_placed (hdb : s.db.WellFormed) :
    wp (f.storeChange d)
      (fun _ t => f.Placed ((s.deltas d).touchedSeq f.lastModified) t.db) (fun _ _ => True) s := by
  simp only [storeChange, assertion, touch, flushCachedEntry, wp_bind, wp_require,
    wp_get, wp_modify, wp_pure, wp_ite, wp_throw]
  refine ⟨fun _ => trivial, fun hvalid => ⟨fun _ => ?_, fun _ => trivial⟩⟩
  have hkey : ({ f with lastModified := (s.deltas d).touchedSeq f.lastModified } :
    TrustFrame).getKey = f.getKey := rfl
  rw [hkey]
  cases hrow : s.db.trustlines[f.getKey]? with
  | none => exact trivial
  | some row =>
    simp only [wp_bind, wp_modify, wp_updateDelta, wp_pure]
    refine ⟨fun δ _ => ⟨by simpa using hvalid, ?_⟩, fun _ => trivial⟩
    -- the columns of the key are those of the row
    have hcolumns := hdb.trustlines _ _ hrow
    simp only [getKey, LedgerKey.trustLine.injEq] at hcolumns
    have hentry : ({ f with lastModified := (s.deltas d).touchedSeq f.lastModified } :
        TrustFrame).toRow row.entry =
          ⟨f.mTrustLine, (s.deltas d).touchedSeq f.lastModified⟩ := by
      simp only [toRow, ← hcolumns.1, ← hcolumns.2]
    rw [hentry]
    exact Std.ExtTreeMap.getElem?_insert_self

theorem Placed.read {ledgerSeq : ℕ} {db' : Database} (h : f.Placed ledgerSeq db')
    (hkeys : (EntryFrame.trustLine f).PublicKeys) :
    db'.read f.getKey = .ok (some ⟨ledgerSeq, .trustLine f.mTrustLine⟩) := by
  show (db'.trustlines[f.getKey]?).mapM _ = _
  rw [h.row]
  exact congrArg (some <$> ·) (read_columns ⟨f.mTrustLine, ledgerSeq⟩ h.valid hkeys.1
    hkeys.2)

end TrustFrame

namespace OfferFrame

variable {f : OfferFrame} {s : LedgerState} {d : ℕ}

/-- An offer that was stored: the seller is the one of the row that was there. -/
structure Placed (f : OfferFrame) (ledgerSeq : ℕ) (db db' : Database) : Prop where
  valid : f.isValid = true
  row : db'.offers[f.mOffer.offerID]? = some ⟨{ f.mOffer with
    sellerID := (db.offers[f.mOffer.offerID]?.map (·.entry.sellerID)).getD f.mOffer.sellerID },
    ledgerSeq⟩

theorem wp_storeAdd_placed :
    wp (f.storeAdd d)
      (fun _ t => f.Placed ((s.deltas d).touchedSeq f.lastModified) s.db t.db)
      (fun _ _ => True) s := by
  simp only [storeAdd, assertion, touch, wp_bind, wp_require, wp_get, wp_pure, wp_ite,
    wp_throw]
  refine ⟨fun _ => ⟨fun _ => trivial, fun hvalid => ?_⟩, fun _ => trivial⟩
  cases hrow : s.db.offers[f.mOffer.offerID]? with
  | some row => exact trivial
  | none =>
    simp only [wp_bind, wp_modify, wp_updateDelta, wp_pure]
    refine ⟨fun δ _ => ⟨by simpa [isValid] using hvalid, ?_⟩, fun _ => trivial⟩
    rw [hrow]
    exact Std.ExtTreeMap.getElem?_insert_self

theorem wp_storeChange_placed :
    wp (f.storeChange d)
      (fun _ t => f.Placed ((s.deltas d).touchedSeq f.lastModified) s.db t.db)
      (fun _ _ => True) s := by
  simp only [storeChange, assertion, touch, wp_bind, wp_require, wp_get, wp_pure, wp_ite,
    wp_throw]
  refine ⟨fun _ => ⟨fun _ => trivial, fun hvalid => ?_⟩, fun _ => trivial⟩
  cases hrow : s.db.offers[f.mOffer.offerID]? with
  | none => exact trivial
  | some row =>
    simp only [wp_bind, wp_modify, wp_updateDelta, wp_pure]
    refine ⟨fun δ _ => ⟨by simpa [isValid] using hvalid, ?_⟩, fun _ => trivial⟩
    rw [hrow]
    exact Std.ExtTreeMap.getElem?_insert_self

theorem Placed.read_iff {insert : Bool} {ledgerSeq : ℕ} {db db' : Database}
    (h : f.Placed ledgerSeq db db') (hkeys : (EntryFrame.offer f).PublicKeys) :
    db'.read f.getKey = .ok (some ⟨ledgerSeq, .offer f.mOffer⟩) ↔
      (EntryFrame.offer f).Lossless insert ledgerSeq db := by
  have hseller : (EntryFrame.offer f).Lossless insert ledgerSeq db ↔
      (db.offers[f.mOffer.offerID]?.map (·.entry.sellerID)).getD f.mOffer.sellerID =
        f.mOffer.sellerID := by
    show (∀ row, _ → _) ↔ _
    cases db.offers[f.mOffer.offerID]? with
    | none => simp
    | some row => simp
  rw [hseller]
  have hread : db'.read f.getKey = (db'.offers[f.mOffer.offerID]?.filter
      (·.entry.sellerID = f.mOffer.sellerID)).mapM fun row => read (columns row) := rfl
  rw [hread, h.row]
  generalize (db.offers[f.mOffer.offerID]?.map (·.entry.sellerID)).getD f.mOffer.sellerID =
    sellerID
  by_cases heq : sellerID = f.mOffer.sellerID
  · subst heq
    rw [Option.filter_some_pos (by simp)]
    have hcolumns := read_columns ⟨f.mOffer, ledgerSeq⟩ h.valid hkeys
    exact iff_of_true (congrArg (some <$> ·) hcolumns) rfl
  · rw [Option.filter_some_neg (by simpa using heq)]
    exact iff_of_false (fun h => nomatch h) heq

end OfferFrame

namespace DataFrame

variable {f : DataFrame} {s : LedgerState} {d : ℕ}

/-- Data that was stored. -/
def Placed (f : DataFrame) (db' : Database) : Prop :=
  db'.accountdata[f.getKey]? = some f.mData

theorem wp_storeAdd_placed :
    wp (f.storeAdd d) (fun _ t => f.Placed t.db) (fun _ _ => True) s := by
  simp only [storeAdd, assertion, touch, wp_bind, wp_require, wp_get, wp_pure]
  refine ⟨fun _ => ?_, fun _ => trivial⟩
  cases s.db.accountdata[({ f with
      lastModified := (s.deltas d).touchedSeq f.lastModified } : DataFrame).getKey]? with
  | some row => exact trivial
  | none =>
    simp only [wp_bind, wp_modify, wp_updateDelta]
    exact ⟨fun δ _ => Std.ExtTreeMap.getElem?_insert_self, fun _ => trivial⟩

theorem wp_storeChange_placed :
    wp (f.storeChange d) (fun _ t => f.Placed t.db) (fun _ _ => True) s := by
  simp only [storeChange, assertion, touch, wp_bind, wp_require, wp_get, wp_pure]
  refine ⟨fun _ => ?_, fun _ => trivial⟩
  cases s.db.accountdata[({ f with
      lastModified := (s.deltas d).touchedSeq f.lastModified } : DataFrame).getKey]? with
  | none => exact trivial
  | some row =>
    simp only [wp_bind, wp_modify, wp_updateDelta]
    exact ⟨fun δ _ => Std.ExtTreeMap.getElem?_insert_self, fun _ => trivial⟩

/-- Data is loaded as modified in no ledger. -/
theorem Placed.read {db' : Database} (h : f.Placed db') (hkey : IsPublicKey f.mData.accountID) :
    db'.read f.getKey = .ok (some ⟨0, .data f.mData⟩) := by
  show (db'.accountdata[f.getKey]?).mapM _ = _
  rw [show db'.accountdata[f.getKey]? = some f.mData from h]
  exact congrArg (some <$> ·) (read_columns hkey)

theorem Placed.read_iff {ledgerSeq : ℕ} {db' : Database} (h : f.Placed db')
    (hkey : IsPublicKey f.mData.accountID) :
    db'.read f.getKey = .ok (some ⟨ledgerSeq, .data f.mData⟩) ↔ ledgerSeq = 0 := by
  constructor
  · exact fun hread => Database.lastModified_of_read hread
  · rintro rfl
    exact h.read hkey

end DataFrame

namespace ReversedPaymentFrame

variable {rID : ℤ} {s : LedgerState} {d lastModified : ℕ}

theorem wp_storeAdd_placed :
    wp (storeAdd d rID lastModified)
      (fun _ t => t.db.reversedPayment[rID]? = some ((s.deltas d).touchedSeq lastModified))
      (fun _ _ => True) s := by
  simp only [storeAdd, assertion, touch, wp_bind, wp_require, wp_get, wp_pure]
  refine ⟨fun _ => ?_, fun _ => trivial⟩
  cases s.db.reversedPayment[rID]? with
  | some row => exact trivial
  | none =>
    simp only [wp_bind, wp_modify, wp_updateDelta]
    exact ⟨fun δ _ => Std.ExtTreeMap.getElem?_insert_self, fun _ => trivial⟩

theorem wp_storeChange_same :
    wp (storeChange d lastModified) (fun _ t => t = s) (fun _ _ => True) s := by
  simp only [storeChange, assertion, touch, wp_bind, wp_require, wp_get, wp_pure]
  exact ⟨fun _ => trivial, fun _ => trivial⟩

theorem read_iff {ledgerSeq : ℕ} {db : Database} :
    db.read (.reversedPayment rID) = .ok (some ⟨ledgerSeq, .reversedPayment ⟨rID⟩⟩) ↔
      db.reversedPayment[rID]? = some ledgerSeq := by
  show Except.ok ((db.reversedPayment[rID]?).map _) = _ ↔ _
  cases db.reversedPayment[rID]? <;> simp

end ReversedPaymentFrame

/-! ## What is stored is loaded -/

namespace EntryFrame

/-- `storeAdd` or `storeChange`. -/
def store (insert : Bool) (d : ℕ) (F : EntryFrame) : LedgerM Unit :=
  if insert then F.storeAdd d else F.storeChange d

variable {F : EntryFrame} {insert : Bool} {d : ℕ} {s t : LedgerState}

theorem placed_trustLine {f : TrustFrame} (hdb : s.db.WellFormed)
    (h : (trustLine f).store insert d s = .ok () t) :
    f.Placed ((s.deltas d).touchedSeq f.lastModified) t.db := by
  have hplaced : wp ((trustLine f).store insert d)
      (fun _ t => f.Placed ((s.deltas d).touchedSeq f.lastModified) t.db) (fun _ _ => True) s := by
    cases insert
    · exact (wp_bind _ _).mpr (wp_mono (TrustFrame.wp_storeChange_placed hdb)
        (fun _ _ h => h) fun _ _ h => h)
    · exact (wp_bind _ _).mpr (wp_mono TrustFrame.wp_storeAdd_placed
        (fun _ _ h => h) fun _ _ h => h)
  have hplaced := of_wp_ok hplaced h
  exact hplaced

/-- What the tables have of an entry after it was stored. -/
theorem read_store_iff (hdb : s.db.WellFormed) (hkeys : F.PublicKeys)
    (h : F.store insert d s = .ok () t) :
    let e := F.mEntry ((s.deltas d).touchedSeq F.lastModified)
    t.db.read (LedgerEntryKey e) = .ok (some e) ↔
      F.Lossless insert ((s.deltas d).touchedSeq F.lastModified) s.db := by
  intro e
  cases F with
  | account f =>
    have hplaced : wp ((account f).store insert d)
        (fun _ t => f.Placed ((s.deltas d).touchedSeq f.lastModified) s.db t.db)
        (fun _ _ => True) s := by
      cases insert
      · exact (wp_bind _ _).mpr (wp_mono AccountFrame.wp_storeChange_placed
          (fun _ _ h => h) fun _ _ h => h)
      · exact (wp_bind _ _).mpr (wp_mono AccountFrame.wp_storeAdd_placed
          (fun _ _ h => h) fun _ _ h => h)
    have hplaced := of_wp_ok hplaced h
    exact hplaced.read_iff hdb hkeys
  | trustLine f => exact iff_of_true ((placed_trustLine hdb h).read hkeys) trivial
  | offer f =>
    have hplaced : wp ((offer f).store insert d)
        (fun _ t => f.Placed ((s.deltas d).touchedSeq f.lastModified) s.db t.db)
        (fun _ _ => True) s := by
      cases insert
      · exact (wp_bind _ _).mpr (wp_mono OfferFrame.wp_storeChange_placed
          (fun _ _ h => h) fun _ _ h => h)
      · exact (wp_bind _ _).mpr (wp_mono OfferFrame.wp_storeAdd_placed
          (fun _ _ h => h) fun _ _ h => h)
    have hplaced := of_wp_ok hplaced h
    exact hplaced.read_iff hkeys
  | data f =>
    have hplaced : wp ((data f).store insert d) (fun _ t => f.Placed t.db) (fun _ _ => True) s := by
      cases insert
      · exact DataFrame.wp_storeChange_placed
      · exact DataFrame.wp_storeAdd_placed
    have hplaced := of_wp_ok hplaced h
    exact hplaced.read_iff hkeys
  | reversedPayment rID lastModified =>
    refine ReversedPaymentFrame.read_iff.trans ?_
    cases insert with
    | true =>
      have hrow := of_wp_ok ReversedPaymentFrame.wp_storeAdd_placed h
      exact iff_of_true hrow (Or.inl rfl)
    | false =>
      have hsame := of_wp_ok ReversedPaymentFrame.wp_storeChange_same h
      obtain rfl : t = s := hsame
      exact (or_iff_right Bool.false_ne_true).symm

/-- **Storing and loading.** When an entry was stored, a load that bypasses the cache returns it as
it is, and `checkAgainstDatabase` reports nothing, if and only if nothing of it is lost. -/
theorem stored_loads_iff (hdb : s.db.WellFormed) (hkeys : F.PublicKeys)
    (h : F.store insert d s = .ok () t) :
    let e := F.mEntry ((s.deltas d).touchedSeq F.lastModified)
    ((∃ u, loadFromDatabase (LedgerEntryKey e) t = .ok (some e) u) ∧
        ∃ u, checkAgainstDatabase e t = .ok () u) ↔
      F.Lossless insert ((s.deltas d).touchedSeq F.lastModified) s.db := by
  intro e
  refine (loads_and_check_iff.trans (and_iff_right ?_)).trans (read_store_iff hdb hkeys h)
  rintro ⟨accountID, hkey⟩
  cases F with
  | trustLine f =>
    have hvalid := (placed_trustLine hdb h).valid
    simp only [TrustFrame.isValid, Bool.decide_and, Bool.and_eq_true, decide_eq_true_eq] at hvalid
    have hkey : LedgerKey.trustLine f.mTrustLine.accountID f.mTrustLine.asset =
      .trustLine accountID .native := hkey
    exact hvalid.1 (LedgerKey.trustLine.inj hkey).2
  | account f => cases hkey
  | offer f => cases hkey
  | data f => cases hkey
  | reversedPayment rID lastModified => cases hkey

/-- An account with a sub-entry and a signer: in the second ledger, and as it comes from a bucket. -/
theorem stored_loads_iff_signer :
    let f : AccountFrame :=
      { mAccountEntry := { accountID := 7, numSubEntries := 1, signers := [⟨8, 1, SIGNER_ADMIN⟩] }
        lastModified := 5 }
    let Same := fun (δ : LedgerDelta) (e : LedgerEntry) =>
      ∃ t, (account f).store true 0 { deltas := fun _ => δ } = .ok () t ∧
        (∃ u, loadFromDatabase (LedgerEntryKey e) t = .ok (some e) u) ∧
          ∃ u, checkAgainstDatabase e t = .ok () u
    Same (.ofHeader { ledgerSeq := 2 }) ⟨2, .account f.mAccountEntry⟩ ∧
      Same (.ofHeader {} false) ⟨5, .account f.mAccountEntry⟩ := by
  intro f Same
  have hdb : Database.WellFormed {} :=
    ⟨fun _ => List.Pairwise.nil, fun _ => nofun, fun _ _ h => nomatch h⟩
  have hkeys : (account f).PublicKeys := ⟨nofun, by decide⟩
  obtain ⟨t, ht⟩ : ∃ t, (account f).store true 0
      { deltas := fun _ => .ofHeader { ledgerSeq := 2 } } = .ok () t := ⟨_, rfl⟩
  obtain ⟨u, hu⟩ : ∃ u, (account f).store true 0
      { deltas := fun _ => .ofHeader {} false } = .ok () u := ⟨_, rfl⟩
  exact ⟨⟨t, ht, (stored_loads_iff hdb hkeys ht).mpr fun _ _ => nofun⟩,
    u, hu, (stored_loads_iff hdb hkeys hu).mpr fun _ _ => nofun⟩

/-- Data of the second ledger is loaded as modified in no ledger, and reported. -/
theorem data_of_ledgerTwo :
    let f : DataFrame := { mData := { accountID := 7, dataName := [97], dataValue := [1] } }
    let e : LedgerEntry := ⟨2, .data f.mData⟩
    ∃ t, (data f).store true 0 { deltas := fun _ => .ofHeader { ledgerSeq := 2 } } = .ok () t ∧
      (∃ u, loadFromDatabase (LedgerEntryKey e) t = .ok (some ⟨0, .data f.mData⟩) u) ∧
        ∃ u, checkAgainstDatabase e t =
          .error (.exception "Inconsistent state between objects: ") u := by
  intro f e
  obtain ⟨t, ht⟩ : ∃ t, (data f).store true 0
      { deltas := fun _ => .ofHeader { ledgerSeq := 2 } } = .ok () t := ⟨_, rfl⟩
  have hplaced := of_wp_ok DataFrame.wp_storeAdd_placed ht
  have hkey : ¬ Refused (LedgerEntryKey e) := fun ⟨_, hkey⟩ => nomatch hkey
  obtain ⟨u, hu⟩ := exists_load hkey (hplaced.read (by decide))
  exact ⟨t, ht, ⟨u, hu⟩, u, (checkAgainstDatabase_of_load hu).trans (if_pos (by decide))⟩

end EntryFrame

end SmartCore.Ledger
