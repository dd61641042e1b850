import SmartCore.Buckets.Bucket

/-!
# The order of buckets

`LedgerEntryIdCmp` is a template: it compares ledger entries with ledger entries, with keys, and
keys with keys, by the fields that identify them. `BucketEntryIdCmp` calls it for live and dead
entries. We show that it is the order of the keys in all of its forms (`ledgerEntryIdCmp_eq`), so
that buckets are sorted in it, and say in its words what a merge does.

**Theorem (`merge_exact`).** A merge and a fresh bucket come out strictly sorted, with exactly the
entries that they should have, and the order that is asserted of what is put out is never violated.
-/

namespace SmartCore.Buckets

open Ledger

/-- What the template reads of its arguments: `type()`, and the identifying fields of the arm of
the union that is selected. -/
class Identified (T : Type) where
  type : T → ℕ
  account : T → Option AccountID
  trustLine : T → Option (AccountID × Asset)
  offer : T → Option (AccountID × ℕ)
  data : T → Option (AccountID × XString)
  reversedPayment : T → Option ℤ

instance : Identified LedgerEntryData where
  type
    | .account _ => 0
    | .trustLine _ => 1
    | .offer _ => 2
    | .data _ => 3
    | .reversedPayment _ => 4
  account
    | .account a => some a.accountID
    | _ => none
  trustLine
    | .trustLine tl => some (tl.accountID, tl.asset)
    | _ => none
  offer
    | .offer o => some (o.sellerID, o.offerID)
    | _ => none
  data
    | .data d => some (d.accountID, d.dataName)
    | _ => none
  reversedPayment
    | .reversedPayment rp => some rp.rID
    | _ => none

instance : Identified LedgerKey where
  type := LedgerKey.type
  account
    | .account accountID => some accountID
    | _ => none
  trustLine
    | .trustLine accountID asset => some (accountID, asset)
    | _ => none
  offer
    | .offer sellerID offerID => some (sellerID, offerID)
    | _ => none
  data
    | .data accountID dataName => some (accountID, dataName)
    | _ => none
  reversedPayment
    | .reversedPayment rID => some rID
    | _ => none

/-- Compares the first fields, and then the second ones. -/
def lessThanPair {A B : Type} [LinearOrder A] [LinearOrder B] (a b : A × B) : Bool :=
  if a.1 < b.1 then true else if b.1 < a.1 then false else decide (a.2 < b.2)

/-- Compares what is there: reading another arm of a union throws. -/
def compareArms {A : Type} (less : A → A → Bool) (a b : Option A) : Bool :=
  match a, b with
  | some a, some b => less a b
  | _, _ => false

/-- `LedgerEntryIdCmp::operator()` -/
def LedgerEntryIdCmp {T U : Type} [Identified T] [Identified U] (a : T) (b : U) : Bool :=
  let aty := Identified.type a
  let bty := Identified.type b
  if aty < bty then true
  else if bty < aty then false
  else
    match aty with
    | 0 => compareArms (fun a b => decide (a < b)) (Identified.account a) (Identified.account b)
    | 1 => compareArms lessThanPair (Identified.trustLine a) (Identified.trustLine b)
    | 2 => compareArms lessThanPair (Identified.offer a) (Identified.offer b)
    | 3 => compareArms lessThanPair (Identified.data a) (Identified.data b)
    | 4 =>
      compareArms (fun a b => decide (a < b)) (Identified.reversedPayment a)
        (Identified.reversedPayment b)
    | _ => false

/-- `BucketEntryIdCmp::operator()` -/
def BucketEntryIdCmp : BucketEntry LedgerEntry LedgerKey → BucketEntry LedgerEntry LedgerKey → Bool
  | .LIVEENTRY a, .LIVEENTRY b => LedgerEntryIdCmp a.data b.data
  | .LIVEENTRY a, .DEADENTRY b => LedgerEntryIdCmp a.data b
  | .DEADENTRY a, .LIVEENTRY b => LedgerEntryIdCmp a b.data
  | .DEADENTRY a, .DEADENTRY b => LedgerEntryIdCmp a b

/-! ## It is the order of the keys -/

theorem ledgerEntryIdCmp_keys (a b : LedgerKey) : LedgerEntryIdCmp a b = ledgerEntryIdCmp a b := by
  cases a <;> cases b <;> try rfl
  -- two lists of bytes: the order is the same, decided in another way
  rw [Bool.eq_iff_iff, LedgerEntryIdCmp, ledgerEntryIdCmp]
  simp [Identified.type, Identified.data, compareArms, lessThanPair, LedgerKey.type]

/-- An entry is read as its key is. -/
theorem ledgerEntryIdCmp_left {U : Type} [Identified U] (a : LedgerEntry) (b : U) :
    LedgerEntryIdCmp a.data b = LedgerEntryIdCmp (LedgerEntryKey a) b := by
  obtain ⟨lastModified, data⟩ := a
  cases data <;> rfl

theorem ledgerEntryIdCmp_right {T : Type} [Identified T] (a : T) (b : LedgerEntry) :
    LedgerEntryIdCmp a b.data = LedgerEntryIdCmp a (LedgerEntryKey b) := by
  obtain ⟨lastModified, data⟩ := b
  cases data <;> rfl

variable {a b c : BucketEntry LedgerEntry LedgerKey}

/-- **The comparison of live and dead entries** is that of their keys. -/
theorem bucketEntryIdCmp_iff : BucketEntryIdCmp a b = true ↔ a.key < b.key := by
  have hkeys : BucketEntryIdCmp a b = LedgerEntryIdCmp a.key b.key := by
    cases a with
    | LIVEENTRY a =>
      cases b with
      | LIVEENTRY b =>
        exact (ledgerEntryIdCmp_left a b.data).trans (ledgerEntryIdCmp_right (LedgerEntryKey a) b)
      | DEADENTRY b => exact ledgerEntryIdCmp_left a b
    | DEADENTRY a =>
      cases b with
      | LIVEENTRY b => exact ledgerEntryIdCmp_right a b
      | DEADENTRY b => rfl
  rw [hkeys, ledgerEntryIdCmp_keys, ledgerEntryIdCmp_iff]

theorem bucketEntryIdCmp_eq_cmp : BucketEntryIdCmp a b = cmp a b := by
  rw [Bool.eq_iff_iff, bucketEntryIdCmp_iff, cmp, decide_eq_true_eq]

/-- Strictly sorted. -/
def StrictlySorted (l : List (BucketEntry LedgerEntry LedgerKey)) : Prop :=
  l.Pairwise fun a b => BucketEntryIdCmp a b = true

theorem strictlySorted_iff {l : List (BucketEntry LedgerEntry LedgerKey)} :
    StrictlySorted l ↔ Ascending l :=
  List.Pairwise.iff fun _ _ => bucketEntryIdCmp_iff

/-! ## What merges do -/

theorem strictlySorted_entries (bucket : Bucket LedgerEntry LedgerKey) :
    StrictlySorted bucket.entries := strictlySorted_iff.mpr bucket.ascending

section Fresh

variable {liveEntries : List LedgerEntry} {deadEntries : List LedgerKey}

/-- A dead entry wins over a live one with the same key. -/
theorem mem_fresh (hlive : (liveEntries.map LedgerEntryKey).Nodup) (hdead : deadEntries.Nodup) :
    ∃ bucket, Bucket.fresh liveEntries deadEntries = some bucket ∧
      ∀ e, e ∈ bucket.entries ↔ (∃ k ∈ deadEntries, e = .DEADENTRY k) ∨
        ∃ x ∈ liveEntries, e = .LIVEENTRY x ∧ LedgerEntryKey x ∉ deadEntries := by
  have hlive' : ((liveEntries.map BucketEntry.LIVEENTRY).map
      (BucketEntry.key (E := LedgerEntry) (K := LedgerKey))).Nodup := by
    rw [List.map_map]
    exact hlive
  have hdead' : ((deadEntries.map BucketEntry.DEADENTRY).map
      (BucketEntry.key (E := LedgerEntry) (K := LedgerKey))).Nodup := by
    rw [List.map_map]
    simpa [Function.comp_def] using hdead
  obtain ⟨liveBucket, hl, hlmem⟩ := writeSorted_spec hlive'
  obtain ⟨deadBucket, hd, hdmem⟩ := writeSorted_spec hdead'
  obtain ⟨bucket, hb, hentries⟩ := merge_spec liveBucket deadBucket [] true
  refine ⟨bucket, by simp [Bucket.fresh, hl, hd, hb], fun e => ?_⟩
  rw [hentries, List.mem_filter, mem_candidates liveBucket.ascending deadBucket.ascending, hdmem,
    hlmem, List.mem_map, List.mem_map]
  have hwritten : decide (Written [] true e) = true := decide_eq_true ⟨Or.inl rfl, by simp⟩
  rw [hwritten, and_iff_left rfl]
  constructor
  · rintro (⟨k, hk, rfl⟩ | ⟨⟨x, hx, rfl⟩, hne⟩)
    · exact Or.inl ⟨k, hk, rfl⟩
    · refine Or.inr ⟨x, hx, rfl, fun hmem => ?_⟩
      exact hne (.DEADENTRY (LedgerEntryKey x))
        ((hdmem _).mpr (List.mem_map_of_mem hmem)) rfl
  · rintro (⟨k, hk, rfl⟩ | ⟨x, hx, rfl, hnot⟩)
    · exact Or.inl ⟨k, hk, rfl⟩
    · refine Or.inr ⟨⟨x, hx, rfl⟩, fun e' he' hkey => ?_⟩
      obtain ⟨k, hk, rfl⟩ := List.mem_map.mp ((hdmem e').mp he')
      have hkey : k = LedgerEntryKey x := hkey
      exact hnot (hkey ▸ hk)

end Fresh

/-- **Bucket merge.** A merge of sorted buckets, and the bucket of a batch, are sorted strictly and
have exactly the right entries; the comparison is a strict weak order, and entries that are
equivalent in it are those with the same key. -/
theorem merge_exact :
    (∀ (oldBucket newBucket : Bucket LedgerEntry LedgerKey)
        (shadows : List (Bucket LedgerEntry LedgerKey)) (keepDeadEntries : Bool),
      ∃ bucket, Bucket.merge oldBucket newBucket shadows keepDeadEntries = some bucket ∧
        StrictlySorted bucket.entries ∧
          ∀ e, e ∈ bucket.entries ↔
            (e ∈ newBucket.entries ∨ e ∈ oldBucket.entries ∧ ¬ HasKey newBucket.entries e.key) ∧
              (∀ shadow ∈ shadows, ¬ HasKey shadow.entries e.key) ∧
                (keepDeadEntries = true ∨ e.isDead = false)) ∧
      (∀ (liveEntries : List LedgerEntry) (deadEntries : List LedgerKey),
        (liveEntries.map LedgerEntryKey).Nodup → deadEntries.Nodup →
          ∃ bucket, Bucket.fresh liveEntries deadEntries = some bucket ∧
            StrictlySorted bucket.entries ∧
              ∀ e, e ∈ bucket.entries ↔ (∃ k ∈ deadEntries, e = .DEADENTRY k) ∨
                ∃ x ∈ liveEntries, e = .LIVEENTRY x ∧ LedgerEntryKey x ∉ deadEntries) ∧
        (∀ a, BucketEntryIdCmp a a = false) ∧
          (∀ a b c, BucketEntryIdCmp a b = true → BucketEntryIdCmp b c = true →
            BucketEntryIdCmp a c = true) ∧
            ∀ a b, (BucketEntryIdCmp a b = false ∧ BucketEntryIdCmp b a = false) ↔
              a.key = b.key := by
  refine ⟨fun oldBucket newBucket shadows keepDeadEntries => ?_, fun live dead hlive hdead => ?_,
    fun a => ?_, fun a b c hab hbc => ?_, fun a b => ?_⟩
  · obtain ⟨bucket, hb, hentries⟩ := merge_spec oldBucket newBucket shadows keepDeadEntries
    refine ⟨bucket, hb, strictlySorted_entries bucket, fun e => ?_⟩
    have hkeys : (∀ e' ∈ newBucket.entries, e'.key ≠ e.key) ↔ ¬ HasKey newBucket.entries e.key := by
      simp [HasKey]
    rw [hentries, List.mem_filter, mem_candidates oldBucket.ascending newBucket.ascending, hkeys,
      decide_eq_true_eq, Written, and_comm (a := _ ∨ e.isDead = false)]
  · obtain ⟨bucket, hb, hmem⟩ := mem_fresh hlive hdead
    exact ⟨bucket, hb, strictlySorted_entries bucket, hmem⟩
  · rw [bucketEntryIdCmp_eq_cmp]
    simp [cmp]
  · rw [bucketEntryIdCmp_iff] at *
    exact hab.trans hbc
  · rw [bucketEntryIdCmp_eq_cmp, bucketEntryIdCmp_eq_cmp]
    simp only [cmp, decide_eq_false_iff_not, not_lt]
    exact ⟨fun h => le_antisymm h.2 h.1, fun h => ⟨h.ge, h.le⟩⟩

end SmartCore.Buckets
