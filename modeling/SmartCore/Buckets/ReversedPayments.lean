import SmartCore.Buckets.ApplyBuckets

/-!
# Reversed payments in the buckets

The table of reversed payments is rebuilt from the buckets like the others. Its rows are added and
never deleted, so it does not matter which version of an entry is applied, nor how often.

**Theorem (`mem_reversedPayment_iff`).** If no payment is ever dead, and the local table has the
payments of the local batches, then after catching up it has those of all batches.
-/

namespace SmartCore.Buckets

open Ledger

variable {db db' : Database} {m : BucketEntry LedgerEntry LedgerKey} {rID : ℤ}

/-! ## What an entry does to the tables -/

/-- Accounts and trust lines are found by the keys that are in their rows. -/
structure KeyedRows (db : Database) : Prop where
  accounts : ∀ (id : AccountID) (row : Row AccountEntry), db.accounts[id]? = some row →
    row.entry.accountID = id
  trustlines : ∀ (id : AccountID) (asset : Asset) (row : Row TrustLineEntry),
    db.trustlines[LedgerKey.trustLine id asset]? = some row →
      row.entry.accountID = id ∧ row.entry.asset = asset

theorem KeyedRows.account (h : KeyedRows db) {accounts : Table AccountID (Row AccountEntry)}
    (haccounts : ∀ (id : AccountID) (row : Row AccountEntry), accounts[id]? = some row →
      db.accounts[id]? = some row ∨ row.entry.accountID = id) :
    KeyedRows { db with accounts } := by
  refine ⟨fun id row hrow => ?_, h.trustlines⟩
  rcases haccounts id row hrow with hold | hkey
  · exact h.accounts id row hold
  · exact hkey

theorem KeyedRows.trustLine (h : KeyedRows db) {trustlines : Table LedgerKey (Row TrustLineEntry)}
    (hlines : ∀ (id : AccountID) (asset : Asset) (row : Row TrustLineEntry),
      trustlines[LedgerKey.trustLine id asset]? = some row →
        db.trustlines[LedgerKey.trustLine id asset]? = some row ∨
          row.entry.accountID = id ∧ row.entry.asset = asset) :
    KeyedRows { db with trustlines } := by
  refine ⟨h.accounts, fun id asset row hrow => ?_⟩
  rcases hlines id asset row hrow with hold | hkey
  · exact h.trustlines id asset row hold
  · exact hkey

/-- The payment is marked by this entry. -/
def MarksPayment (rID : ℤ) (m : BucketEntry LedgerEntry LedgerKey) : Prop :=
  m.isDead = false ∧ m.key = .reversedPayment rID

/-- What an entry leaves, if it does not delete a reversed payment. -/
structure Leaves (m : BucketEntry LedgerEntry LedgerKey) (db db' : Database) : Prop where
  keyed : KeyedRows db → KeyedRows db'
  select : ∀ k ≠ m.key, db'.select k = db.select k
  marked : (∀ rID, m ≠ .DEADENTRY (.reversedPayment rID)) →
    ∀ rID : ℤ, rID ∈ db'.reversedPayment ↔ rID ∈ db.reversedPayment ∨ MarksPayment rID m

theorem leaves_delete (k : LedgerKey) : Leaves (.DEADENTRY k) db (storeDelete db k) := by
  have hunmarked : ∀ rID, ¬ MarksPayment rID (.DEADENTRY k) := fun _ h => nomatch h.1
  cases k with
  | account id =>
    refine ⟨fun h => h.account fun id' row hrow => ?_, fun k hk => ?_, fun _ rID => ?_⟩
    · rw [Std.ExtTreeMap.getElem?_erase] at hrow
      split_ifs at hrow
      exact Or.inl hrow
    · cases k with
      | account id' =>
        have hne : id' ≠ id := fun heq => hk (congrArg LedgerKey.account heq)
        simp only [storeDelete, Database.select, Database.selectAccount,
          Table.getElem?_erase_of_ne id' hne]
      | _ => rfl
    · exact (or_iff_left (hunmarked rID)).symm
  | trustLine id asset =>
    refine ⟨fun h => h.trustLine fun id' asset' row hrow => ?_, fun k hk => ?_, fun _ rID => ?_⟩
    · rw [Std.ExtTreeMap.getElem?_erase] at hrow
      split_ifs at hrow
      exact Or.inl hrow
    · cases k with
      | trustLine id' asset' =>
        have hne : LedgerKey.trustLine id' asset' ≠ .trustLine id asset := hk
        simp only [storeDelete, Database.select, Database.selectTrustLine,
          Table.getElem?_erase_of_ne _ hne]
      | _ => rfl
    · exact (or_iff_left (hunmarked rID)).symm
  | reversedPayment rID =>
    exact ⟨fun h => ⟨h.accounts, h.trustlines⟩, fun k _ => by cases k <;> rfl,
      fun h => absurd rfl (h rID)⟩
  | _ =>
    exact ⟨fun h => ⟨h.accounts, h.trustlines⟩, fun k _ => by cases k <;> rfl,
      fun _ rID => (or_iff_left (hunmarked rID)).symm⟩

theorem leaves_store {e : LedgerEntry} (h : storeAddOrChange db e = some db') :
    Leaves (.LIVEENTRY e) db db' := by
  obtain ⟨lastModified, data⟩ := e
  cases data with
  | account a =>
    simp only [storeAddOrChange, storeAccount] at h
    split_ifs at h
    obtain rfl := Option.some.inj h
    refine ⟨fun hdb => hdb.account fun id row hrow => ?_, fun k hk => ?_, fun _ rID => ?_⟩
    · rw [Std.ExtTreeMap.getElem?_insert] at hrow
      split_ifs at hrow with hid
      · rw [← Option.some.inj hrow]
        exact Or.inr (compare_eq_iff_eq.mp hid)
      · exact Or.inl hrow
    · cases k with
      | account id =>
        have hne : id ≠ a.accountID := fun heq => hk (congrArg LedgerKey.account heq)
        simp only [Database.select, Database.selectAccount, Table.getElem?_insert_of_ne id hne]
      | _ => rfl
    · exact (or_iff_left fun hm => by cases hm.2).symm
  | trustLine tl =>
    simp only [storeAddOrChange, storeTrustLine] at h
    split_ifs at h
    obtain rfl := Option.some.inj h
    refine ⟨fun hdb => hdb.trustLine fun id asset row hrow => ?_, fun k hk => ?_, fun _ rID => ?_⟩
    · rw [Std.ExtTreeMap.getElem?_insert] at hrow
      split_ifs at hrow with hkey
      · obtain ⟨rfl, rfl⟩ := LedgerKey.trustLine.inj (compare_eq_iff_eq.mp hkey)
        refine Or.inr ?_
        rw [← Option.some.inj hrow]
        cases hold : db.trustlines[LedgerKey.trustLine tl.accountID tl.asset]? with
        | none => simp [TrustFrame.getKey, hold]
        | some old =>
          have hkeyed := hdb.trustlines _ _ old hold
          simpa [TrustFrame.getKey, hold, TrustFrame.toRow] using hkeyed
      · exact Or.inl hrow
    · cases k with
      | trustLine id asset =>
        have hne : LedgerKey.trustLine id asset ≠
            TrustFrame.getKey { mTrustLine := tl, lastModified } := hk
        simp only [Database.select, Database.selectTrustLine, Table.getElem?_insert_of_ne _ hne]
      | _ => rfl
    · exact (or_iff_left fun hm => by cases hm.2).symm
  | offer o =>
    simp only [storeAddOrChange, storeOffer] at h
    split_ifs at h
    obtain rfl := Option.some.inj h
    exact ⟨fun hdb => ⟨hdb.accounts, hdb.trustlines⟩, fun k _ => by cases k <;> rfl,
      fun _ rID => (or_iff_left fun hm => by cases hm.2).symm⟩
  | data d =>
    obtain rfl := Option.some.inj h
    exact ⟨fun hdb => ⟨hdb.accounts, hdb.trustlines⟩, fun k _ => by cases k <;> rfl,
      fun _ rID => (or_iff_left fun hm => by cases hm.2).symm⟩
  | reversedPayment rp =>
    obtain rfl := Option.some.inj h
    refine ⟨fun hdb => ⟨hdb.accounts, hdb.trustlines⟩, fun k _ => by cases k <;> rfl,
      fun _ rID => ?_⟩
    have hmark : MarksPayment rID (.LIVEENTRY ⟨lastModified, .reversedPayment rp⟩) ↔
        rp.rID = rID := by
      constructor
      · exact fun hm => LedgerKey.reversedPayment.inj hm.2
      · exact fun hid => ⟨rfl, congrArg LedgerKey.reversedPayment hid⟩
    rw [hmark]
    show rID ∈ db.reversedPayment.insertIfNew rp.rID lastModified ↔ _
    rw [Std.ExtTreeMap.mem_insertIfNew, compare_eq_iff_eq, or_comm]

theorem leaves_applyEntry (h : applyEntry db m = some db') : Leaves m db db' := by
  cases m with
  | LIVEENTRY e => exact leaves_store h
  | DEADENTRY k =>
    obtain rfl := Option.some.inj h
    exact leaves_delete k

/-! ## What the buckets do to the tables -/

/-- The entries, one after the other. -/
structure LeavesAll (ms : List (BucketEntry LedgerEntry LedgerKey)) (db db' : Database) : Prop where
  keyed : KeyedRows db → KeyedRows db'
  select : ∀ k, (∀ m ∈ ms, m.key ≠ k) → db'.select k = db.select k
  marked : (∀ m ∈ ms, ∀ rID, m ≠ .DEADENTRY (.reversedPayment rID)) →
    ∀ rID : ℤ, rID ∈ db'.reversedPayment ↔
      rID ∈ db.reversedPayment ∨ ∃ m ∈ ms, MarksPayment rID m

theorem leavesAll_foldlM {ms : List (BucketEntry LedgerEntry LedgerKey)}
    (h : ms.foldlM applyEntry db = some db') : LeavesAll ms db db' := by
  induction ms generalizing db with
  | nil =>
    obtain rfl := Option.some.inj h
    exact ⟨id, fun _ _ => rfl, fun _ rID => by simp⟩
  | cons m ms ih =>
    rw [List.foldlM_cons, Option.bind_eq_bind, Option.bind_eq_some_iff] at h
    obtain ⟨db₁, hfirst, hrest⟩ := h
    have hone := leaves_applyEntry hfirst
    have hall := ih hrest
    refine ⟨fun hdb => hall.keyed (hone.keyed hdb), fun k hk => ?_, fun hms rID => ?_⟩
    · rw [hall.select k fun m' hm' => hk m' (List.mem_cons_of_mem _ hm'),
        hone.select k (hk m List.mem_cons_self).symm]
    · rw [hall.marked (fun m' hm' => hms m' (List.mem_cons_of_mem _ hm')) rID,
        hone.marked (hms m List.mem_cons_self) rID, or_assoc, List.exists_mem_cons_iff]

/-- All entries of these buckets. -/
def entriesOf (bs : List (Bucket LedgerEntry LedgerKey)) :
    List (BucketEntry LedgerEntry LedgerKey) :=
  bs.flatMap Bucket.entries

theorem leavesAll_applyAll {bs : List (Bucket LedgerEntry LedgerKey)}
    (h : bs.foldlM applyBucket db = some db') : LeavesAll (entriesOf bs) db db' := by
  refine leavesAll_foldlM ?_
  rw [entriesOf, foldlM_flatMap]
  exact h

/-! ## The payments of the batches -/

section Payments

variable {batches batches' : List (Batch LedgerEntry LedgerKey)}
  {bl remote : BucketList LedgerEntry LedgerKey}

/-- The payments that a batch marks. -/
def Batch.marks (batch : Batch LedgerEntry LedgerKey) (rID : ℤ) : Prop :=
  .reversedPayment rID ∈ batch.liveEntries.map LedgerEntryKey

/-- No payment is dead. -/
def NoneDead (batches : List (Batch LedgerEntry LedgerKey)) : Prop :=
  ∀ batch ∈ batches, ∀ rID, .reversedPayment rID ∉ batch.deadEntries

theorem find_isSome_iff {batch : Batch LedgerEntry LedgerKey}
    (hdead : .reversedPayment rID ∉ batch.deadEntries) :
    (batch.find (.reversedPayment rID)).isSome ↔ batch.marks rID := by
  rw [Batch.find, if_neg hdead, Option.isSome_map, List.find?_isSome, Batch.marks, List.mem_map]
  simp only [decide_eq_true_eq]
  rfl

/-- An entry from a batch that is of a payment marks it. -/
theorem FromBatch.marks (hnone : NoneDead batches) (hm : FromBatch batches m)
    (hkey : m.key = .reversedPayment rID) :
    m.isDead = false ∧ ∃ batch ∈ batches, batch.marks rID := by
  obtain ⟨batch, hbatch, hfind⟩ := hm
  rw [hkey] at hfind
  have hdead := hnone batch hbatch rID
  refine ⟨?_, batch, hbatch, (find_isSome_iff hdead).mp (Option.isSome_of_eq_some hfind)⟩
  rw [Batch.find, if_neg hdead] at hfind
  obtain ⟨e, -, rfl⟩ := Option.map_eq_some_iff.mp hfind
  rfl

/-- A payment that was marked is in the ledger. -/
theorem ledgerAfter_isSome (hnone : NoneDead batches)
    (hmarks : ∃ batch ∈ batches, batch.marks rID) :
    (ledgerAfter batches (.reversedPayment rID)).isSome := by
  induction batches using List.reverseRecOn with
  | nil => obtain ⟨batch, hbatch, -⟩ := hmarks; cases hbatch
  | append_singleton batches batch ih =>
    have hstep : ledgerAfter (batches ++ [batch]) (.reversedPayment rID) =
        ((batch.find (.reversedPayment rID)).map BucketEntry.live?).getD
          (ledgerAfter batches (.reversedPayment rID)) := by
      simp [ledgerAfter]
    have hdead := hnone batch (by simp) rID
    rw [hstep]
    cases hfind : batch.find (.reversedPayment rID) with
    | none =>
      refine ih (fun b hb => hnone b (List.mem_append_left _ hb)) ?_
      obtain ⟨b, hb, hmark⟩ := hmarks
      rcases List.mem_append.mp hb with hb | hb
      · exact ⟨b, hb, hmark⟩
      · obtain rfl := List.mem_singleton.mp hb
        rw [← find_isSome_iff hdead, hfind] at hmark
        cases hmark
    | some m =>
      rw [Batch.find, if_neg hdead] at hfind
      obtain ⟨e, -, rfl⟩ := Option.map_eq_some_iff.mp hfind
      rfl

/-- **Catching up** marks the payments of all batches. -/
theorem mem_reversedPayment_iff {hash : Bucket LedgerEntry LedgerKey → Hash}
    {getBucket : Hash → Option (Bucket LedgerEntry LedgerKey)} (hlen : batches.length < 2 ^ 32)
    (hdistinct : ∀ batch ∈ batches, batch.Distinct) (hnone : NoneDead batches)
    (hearlier : batches' <+: batches) (ready ready' : ℕ → ℕ → Bool)
    (hbl : runBatches ready batches' = .ok bl) (hremote : runBatches ready' batches = .ok remote)
    (resolved : ℕ → Bool) (hget : ∀ b ∈ remote.buckets, getBucket (hash b) = some b)
    (hinj : ∀ b ∈ bl.buckets, ∀ b' ∈ remote.buckets, hash b' = hash b → b = b')
    (hdb : ∀ rID : ℤ, rID ∈ db.reversedPayment ↔ ∃ batch ∈ batches', batch.marks rID)
    (happly : applyBuckets hash getBucket (remote.saveState hash resolved) bl db = some db') :
    ∀ rID : ℤ, rID ∈ db'.reversedPayment ↔ ∃ batch ∈ batches, batch.marks rID := by
  have hsub : batches' ⊆ batches := hearlier.subset
  have hlocal : ListFrom (FromBatch batches') bl :=
    listFrom_runBatches ready (hearlier.length_le.trans_lt hlen)
      (fun b hb => hdistinct b (hsub hb)) hbl
  have hfrom : ListFrom (FromBatch batches) remote :=
    listFrom_runBatches ready' hlen hdistinct hremote
  obtain ⟨remote₁, hremote₁, -, hview⟩ := runBatches_spec ready' hlen hdistinct
  obtain rfl : remote₁ = remote := Except.ok.inj (hremote₁.symm.trans hremote)
  have happlied : ∀ m ∈ entriesOf (appliedBuckets bl remote₁), FromBatch batches m := by
    intro m hm
    obtain ⟨b, hb, hm⟩ := List.mem_flatMap.mp hm
    exact hfrom.of_mem_buckets (mem_remote_of_applied hb) m hm
  rw [applyBuckets_eq resolved hget hinj] at happly
  intro rID
  rw [(leavesAll_applyAll happly).marked (fun m hm rID heq => ?_) rID, hdb]
  · constructor
    · rintro (⟨batch, hbatch, hmark⟩ | ⟨m, hm, -, hkey⟩)
      · exact ⟨batch, hsub hbatch, hmark⟩
      · exact ((happlied m hm).marks hnone hkey).2
    · intro hmarks
      obtain ⟨e, he⟩ := Option.isSome_iff_exists.mp (ledgerAfter_isSome hnone hmarks)
      rw [← hview] at he
      -- either it is applied, or it is in the local buckets
      by_cases hvs : versions bl remote₁ (.reversedPayment rID) = []
      · obtain ⟨b, hb, hmem⟩ := mem_local_of_no_versions hvs he
        have hbatch := hlocal.of_mem_buckets hb _ hmem
        have hkey := (fromBatch_view hfrom he).2
        exact Or.inl (hbatch.marks (fun b hb => hnone b (hsub hb)) hkey).2
      · obtain ⟨m, hm⟩ := List.exists_mem_of_ne_nil _ hvs
        obtain ⟨b, hb, hfind⟩ := List.mem_filterMap.mp hm
        obtain ⟨hmem, hkey⟩ := Bucket.find_eq_some_iff.mp hfind
        have hm' : m ∈ entriesOf (appliedBuckets bl remote₁) := List.mem_flatMap_of_mem hb hmem
        exact Or.inr ⟨m, hm', ((happlied m hm').marks hnone hkey).1, hkey⟩
  · subst heq
    exact nomatch ((happlied _ hm).marks hnone rfl).1

end Payments

end SmartCore.Buckets
