import SmartCore.Transactions.PaymentReversal
import SmartCore.Transactions.Steps
import SmartCore.Buckets.ReversedPayments

/-!
# A payment is reversed once

A node starts with the first ledger. It closes ledgers, restarts, and catches up: it applies the
buckets of a node that has closed more ledgers than it has itself. The payments that are marked are
always those that the transactions of its ledgers have reversed, each once, and a transaction that
fails has marked none.

What a reversal moves is another matter: `addBalance` lets the line of the issuer wrap around.

**Theorem (`reversed_once_and_settled_iff`).** In every such run a payment is reversed at most once.
A reversal that succeeds changes the three lines as it says if and only if the sums are 64-bit
numbers.
-/

namespace SmartCore.Transactions

open SmartCore.Ledger SmartCore.Buckets OfferExchange TransactionFrame OperationFrame LedgerManager
  PaymentReversalOpFrame

variable {app : Application} {env : TransactionEnvelope} {op : Operation}
  {fee : Option OperationFee} {s t u v : LedgerState} {d : ℕ}

/-! ## The batch of a ledger -/

/-- What a ledger adds to the bucket list. -/
def batchOf (s : LedgerState) : Batch LedgerEntry LedgerKey :=
  ⟨(s.deltas 0).getLiveEntries, (s.deltas 0).getDeadEntries⟩

theorem map_key_toList {table : Table LedgerKey LedgerEntry}
    (h : ∀ k e, table[k]? = some e → LedgerEntryKey e = k) :
    (table.toList.map (·.2)).map LedgerEntryKey = table.keys := by
  rw [← Std.ExtTreeMap.map_fst_toList_eq_keys, List.map_map]
  refine List.map_congr_left fun row hrow => ?_
  exact h row.1 row.2 (Std.ExtTreeMap.mem_toList_iff_getElem?_eq_some.mp hrow)

theorem map_key_getLiveEntries {δ : LedgerDelta} (h : δ.Tidy) :
    δ.getLiveEntries.map LedgerEntryKey = δ.mNew.keys ++ δ.mMod.keys := by
  rw [LedgerDelta.getLiveEntries, List.map_append, map_key_toList h.wf.new,
    map_key_toList h.wf.mod]

theorem distinct_batchOf (h : Tidy 0 s) : (batchOf s).Distinct := by
  have hdelta := h.deltas 0 le_rfl
  have hkeys : (batchOf s).liveEntries.map LedgerEntryKey =
      (s.deltas 0).mNew.keys ++ (s.deltas 0).mMod.keys := map_key_getLiveEntries hdelta
  show ((batchOf s).liveEntries.map LedgerEntryKey ++ (s.deltas 0).mDelete.keys).Nodup
  rw [hkeys]
  refine List.nodup_append.mpr ⟨List.nodup_append.mpr ⟨Std.ExtTreeMap.nodup_keys,
    Std.ExtTreeMap.nodup_keys, ?_⟩, Std.ExtTreeMap.nodup_keys, ?_⟩
  · intro k hnew k' hmod heq
    subst heq
    exact hdelta.apart k (Std.ExtTreeMap.mem_keys.mp hnew) (Std.ExtTreeMap.mem_keys.mp hmod)
  · intro k hlive k' hdead heq
    subst heq
    have hdisjoint := hdelta.wf.disjoint k (Std.ExtTreeMap.mem_keys.mp hdead)
    rcases List.mem_append.mp hlive with hnew | hmod
    · exact hdisjoint.1 (Std.ExtTreeMap.mem_keys.mp hnew)
    · exact hdisjoint.2 (Std.ExtTreeMap.mem_keys.mp hmod)

/-- The batch has the payments that the ledger marked. -/
theorem Closed.marks_iff {ids : List ℤ} (h : Closed ids s t) (rID : ℤ) :
    (batchOf t).marks rID ↔ rID ∈ ids := by
  have hkeys : (batchOf t).liveEntries.map LedgerEntryKey =
      (t.deltas 0).mNew.keys ++ (t.deltas 0).mMod.keys :=
    map_key_getLiveEntries (h.tidy.deltas 0 le_rfl)
  rw [Batch.marks, hkeys, List.mem_append, Std.ExtTreeMap.mem_keys, Std.ExtTreeMap.mem_keys,
    h.new, or_iff_left (h.onlyNew rID).1]

theorem Closed.not_dead {ids : List ℤ} (h : Closed ids s t) (rID : ℤ) :
    .reversedPayment rID ∉ (batchOf t).deadEntries := fun hdead =>
  (h.onlyNew rID).2 (Std.ExtTreeMap.mem_keys.mp hdead)

/-! ## Runs -/

/-- A node in the course of its life, with the transactions that were applied with success in the
ledgers it has, and what these ledgers have added to its bucket list. -/
inductive Lived (app : Application) : List TransactionEnvelope →
    List (Batch LedgerEntry LedgerKey) → LedgerState → Prop
  | start {s : LedgerState} (h : startNewLedger app {} = .ok () s) : Lived app [] [batchOf s] s
  | close {done : List TransactionEnvelope} {batches : List (Batch LedgerEntry LedgerKey)}
      {s t : LedgerState} {data : LedgerCloseData} (hlived : Lived app done batches s)
      (h : closeLedger app data s = .ok () t) :
      Lived app (done ++ succeeded app data s) (batches ++ [batchOf t]) t
  /-- Only what is in the database is left. -/
  | restart {done : List TransactionEnvelope} {batches : List (Batch LedgerEntry LedgerKey)}
      {s : LedgerState} (hlived : Lived app done batches s) :
      Lived app done batches
        { db := s.db, mCurrentLedger := s.mCurrentLedger, txhistory := s.txhistory }
  /-- The ledgers of another node are those of this one, and more. What is applied of its buckets
  is dropped from the cache. -/
  | catchup {done done' : List TransactionEnvelope}
      {batches batches' : List (Batch LedgerEntry LedgerKey)} {s r : LedgerState}
      {ready ready' : ℕ → ℕ → Bool} {resolved : ℕ → Bool}
      {bl remote : BucketList LedgerEntry LedgerKey} {hash : Bucket LedgerEntry LedgerKey → Hash}
      {getBucket : Hash → Option (Bucket LedgerEntry LedgerKey)} {db : Database}
      {cache : List (LedgerKey × Option LedgerEntry)}
      (hlocal : Lived app done' batches' s) (hremote : Lived app done batches r)
      (hearlier : batches' <+: batches) (hlen : batches.length < 2 ^ 32)
      (hbl : runBatches ready batches' = .ok bl) (hrun : runBatches ready' batches = .ok remote)
      (hget : ∀ b ∈ remote.buckets, getBucket (hash b) = some b)
      (hinj : ∀ b ∈ bl.buckets, ∀ b' ∈ remote.buckets, hash b' = hash b → b = b')
      (happly : applyBuckets hash getBucket (remote.saveState hash resolved) bl s.db = some db)
      (hcache : ∀ k v, (k, v) ∈ cache → (k, v) ∈ s.mEntryCache ∧ versions bl remote k = []) :
      Lived app done batches
        { s with db, mEntryCache := cache, mCurrentLedger := r.mCurrentLedger }

/-- Ledgers that are closed from genesis on. -/
theorem Lived.of_runInputs {ledgers : List LedgerCloseData} {done : List TransactionEnvelope}
    {batches : List (Batch LedgerEntry LedgerKey)} (h : Lived app done batches s)
    (hrun : runInputs (closeLedger app) ledgers s = .ok () t) :
    ∃ done batches, Lived app done batches t := by
  induction ledgers generalizing s done batches with
  | nil =>
    cases hrun
    exact ⟨done, batches, h⟩
  | cons data ledgers ih =>
    have hsplit : runInputs (closeLedger app) (data :: ledgers) = (do
      closeLedger app data
      runInputs (closeLedger app) ledgers) := rfl
    rw [hsplit] at hrun
    have hbind : EStateM.bind (closeLedger app data) (fun _ => runInputs (closeLedger app) ledgers)
        s = .ok () t := hrun
    rw [EStateM.bind] at hbind
    cases hclose : closeLedger app data s with
    | error e u =>
      rw [hclose] at hbind
      cases hbind
    | ok _ u =>
      rw [hclose] at hbind
      exact ih (h.close hclose) hbind

theorem Lived.of_runLedgers {ledgers : List LedgerCloseData}
    (hrun : runLedgers app ledgers {} = .ok () s) : ∃ done batches, Lived app done batches s := by
  have hbind : EStateM.bind (startNewLedger app)
      (fun _ => runInputs (closeLedger app) ledgers) {} = .ok () s := hrun
  rw [EStateM.bind] at hbind
  cases hstart : startNewLedger app {} with
  | error e u =>
    rw [hstart] at hbind
    cases hbind
  | ok _ u =>
    rw [hstart] at hbind
    exact (Lived.start hstart).of_runInputs hbind

/-- The payments that are marked, in the table and in the bucket list, are those that were reversed,
and none of them twice. -/
structure Recorded (done : List TransactionEnvelope)
    (batches : List (Batch LedgerEntry LedgerKey)) (s : LedgerState) : Prop where
  atRest : AtRest s
  nodup : (done.flatMap reversals).Nodup
  rows : ∀ rID : ℤ, rID ∈ s.db.reversedPayment ↔ rID ∈ done.flatMap reversals
  distinct : ∀ batch ∈ batches, batch.Distinct
  noneDead : NoneDead batches
  marks : ∀ rID : ℤ, (∃ batch ∈ batches, batch.marks rID) ↔ rID ∈ done.flatMap reversals

namespace Recorded

variable {done done' : List TransactionEnvelope}
  {batches batches' : List (Batch LedgerEntry LedgerKey)}

/-- A ledger is closed. -/
theorem close {ids : List ℤ} (h : Recorded done batches s) (hclosed : Closed ids s t)
    (hrest : AtRest t) (hids : done'.flatMap reversals = done.flatMap reversals ++ ids) :
    Recorded done' (batches ++ [batchOf t]) t := by
  refine ⟨hrest, ?_, fun rID => ?_, fun batch hbatch => ?_, fun batch hbatch rID => ?_,
    fun rID => ?_⟩
  · rw [hids]
    refine List.nodup_append.mpr ⟨h.nodup, hclosed.once.nodup, ?_⟩
    intro rID hold rID' hnew heq
    subst heq
    exact hclosed.once.fresh rID hnew ((h.rows rID).mpr hold)
  · rw [hclosed.once.marks, h.rows, hids, List.mem_append]
  · rcases List.mem_append.mp hbatch with hold | hnew
    · exact h.distinct batch hold
    · rw [List.mem_singleton.mp hnew]
      exact distinct_batchOf hclosed.tidy
  · rcases List.mem_append.mp hbatch with hold | hnew
    · exact h.noneDead batch hold rID
    · rw [List.mem_singleton.mp hnew]
      exact hclosed.not_dead rID
  · have hlast : (∃ batch ∈ batches ++ [batchOf t], batch.marks rID) ↔
        (∃ batch ∈ batches, batch.marks rID) ∨ (batchOf t).marks rID := by
      simp only [List.mem_append, List.mem_singleton, or_and_right, exists_or, exists_eq_left]
    rw [hlast, h.marks, hclosed.marks_iff, hids, List.mem_append]

/-- Nothing is in memory. -/
theorem atRest_of_rows
    (hrows : ∀ (id : AccountID) (row : Row AccountEntry), s.db.accounts[id]? = some row →
      row.entry.accountID = id)
    (hlines : KeyedLines s) (hcache : s.mEntryCache = []) (hsigning : s.mSigningAccount = none)
    (hsource : s.mSourceAccount = none) : AtRest s := by
  refine ⟨⟨⟨fun id row hrow => ⟨hrows id row hrow, trivial, fun _ _ => trivial⟩,
    fun _ _ _ _ _ => trivial, fun k lastModified a hmem => ?_, fun f hf => ?_, fun f hf => ?_⟩,
    fun k v hmem => ?_⟩, hlines⟩
  · rw [hcache] at hmem
    cases hmem
  · rw [hsigning] at hf
    cases hf
  · rw [hsource] at hf
    cases hf
  · rw [hcache] at hmem
    cases hmem

/-- The node has lost what it had in memory. -/
theorem restart (h : Recorded done batches s) :
    Recorded done batches
      { db := s.db, mCurrentLedger := s.mCurrentLedger, txhistory := s.txhistory } := by
  have hrest : AtRest
      { db := s.db, mCurrentLedger := s.mCurrentLedger, txhistory := s.txhistory } :=
    atRest_of_rows (fun id row hrow => (h.atRest.ordered.contained.rows id row hrow).1)
      h.atRest.lines rfl rfl rfl
  exact ⟨hrest, h.nodup, h.rows, h.distinct, h.noneDead, h.marks⟩

/-- The tables have been written by the buckets. -/
theorem atRest_catchup {db : Database} {cache : List (LedgerKey × Option LedgerEntry)}
    {header : LedgerHeader} {ms : List (BucketEntry LedgerEntry LedgerKey)} (h : AtRest s)
    (hleaves : LeavesAll ms s.db db)
    (hcache : ∀ k v, (k, v) ∈ cache → (k, v) ∈ s.mEntryCache ∧ ∀ m ∈ ms, m.key ≠ k) :
    AtRest { s with db, mEntryCache := cache, mCurrentLedger := header } := by
  obtain ⟨hcontained, hcoherent⟩ := h.ordered
  have hkeyed : KeyedRows db :=
    hleaves.keyed ⟨fun id row hrow => (hcontained.rows id row hrow).1, h.lines⟩
  refine ⟨⟨⟨fun id row hrow => ⟨hkeyed.accounts id row hrow, trivial, fun _ _ => trivial⟩,
    fun _ _ _ _ _ => trivial,
    fun k lastModified a hmem => ?_, hcontained.signing, hcontained.source⟩, fun k v hmem => ?_⟩,
    hkeyed.trustlines⟩
  · exact hcontained.cached k lastModified a (hcache _ _ hmem).1
  · obtain ⟨hold, huntouched⟩ := hcache k v hmem
    rw [hcoherent k v hold]
    exact (hleaves.select k huntouched).symm

end Recorded

/-- **The induction over a life.** -/
theorem Lived.recorded {done : List TransactionEnvelope}
    {batches : List (Batch LedgerEntry LedgerKey)} (h : Lived app done batches s) :
    Recorded done batches s := by
  induction h with
  | start h =>
    obtain ⟨hclosed, hrest⟩ := of_wp_ok wp_startNewLedger_reversed h
    have hempty : Recorded [] [] {} := by
      have hrest : AtRest {} := by
        refine Recorded.atRest_of_rows (fun id row hrow => ?_) (fun id asset row hrow => ?_)
          rfl rfl rfl
        · simp at hrow
        · simp at hrow
      exact ⟨hrest, List.nodup_nil, fun rID => by simp, nofun, nofun, fun rID => by simp⟩
    exact hempty.close hclosed hrest rfl
  | close hlived h ih =>
    obtain ⟨hclosed, hrest⟩ := of_wp_ok (wp_closeLedger_reversed ih.atRest) h
    exact ih.close hclosed hrest List.flatMap_append
  | restart hlived ih => exact ih.restart
  | @catchup done done' batches batches' s r ready ready' resolved bl remote hash getBucket db cache
      hlocal hremote hearlier hlen hbl hrun hget hinj happly hcache ihlocal ihremote =>
    have hdb : ∀ rID : ℤ, rID ∈ s.db.reversedPayment ↔ ∃ batch ∈ batches', batch.marks rID :=
      fun rID => by rw [ihlocal.rows, ihlocal.marks]
    have hmarks := mem_reversedPayment_iff hlen ihremote.distinct ihremote.noneDead hearlier ready
      ready' hbl hrun resolved hget hinj hdb happly
    rw [applyBuckets_eq resolved hget hinj] at happly
    refine ⟨Recorded.atRest_catchup ihlocal.atRest (leavesAll_applyAll happly) fun k v hmem => ?_,
      ihremote.nodup, fun rID => ?_, ihremote.distinct, ihremote.noneDead, ihremote.marks⟩
    · obtain ⟨hold, hvs⟩ := hcache k v hmem
      refine ⟨hold, fun m hm hkey => ?_⟩
      obtain ⟨b, hb, hm⟩ := List.mem_flatMap.mp hm
      have hfind : b.find k = some m := Bucket.find_eq_some_iff.mpr ⟨hm, hkey⟩
      have hversion : m ∈ versions bl remote k := List.mem_filterMap.mpr ⟨b, hb, hfind⟩
      rw [hvs] at hversion
      cases hversion
    · rw [hmarks, ihremote.marks]

/-! ## The operations of a transaction -/

/-- The state in which an operation of a transaction is applied, in a delta of its own. -/
def OperationAt (app : Application) (env : TransactionEnvelope) (s : LedgerState) (op : Operation)
    (fee : Option OperationFee) (t : LedgerState) : Prop :=
  ∃ pre post u failed v, mOperations env = pre ++ (op, fee) :: post ∧
    checks app env (begun s) = .ok () u ∧
      applyOperations app env 2 pre (withDelta 1 u) = .ok failed v ∧ t = withDelta 2 v

/-- Every operation is applied to tables that can be read. -/
theorem OperationAt.readable (h : OperationAt app env s op fee t) (hs : Ordered s)
    (hnoting : Noting 0 s) : Contained anyCustody t ∧ Readable t := by
  obtain ⟨pre, post, u, failed, v, -, hchecks, hpre, rfl⟩ := h
  have hbegun : Contained anyCustody (begun s) := hs.contained.newFrames rfl (fun _ hp => hp) rfl rfl
  have hstart : Noting 0 (newFrames s) :=
    ⟨hnoting.tidy.of_eq rfl rfl, hnoting.onlyNew⟩
  have hloads : OnlyLoads 1 (checks app env) :=
    OnlyLoads.resetSignatureTracker.bind fun _ => .commonValid
  have hkeeps : KeepsContained anyCustody (checks app env) fun _ => True :=
    keepsContained_resetSignatureTracker.seq fun _ => keepsContained_commonValid
  have hchecked : Checked 1 (begun s) u :=
    of_wp_ok (Q := fun _ u => Checked 1 (begun s) u) (hloads _) hchecks
  have hcu : Contained anyCustody u := (of_wp_ok (hkeeps _ hbegun) hchecks).1
  have hin : Inside [] 1 u := hchecked.inside ⟨hs.coherent, nofun⟩
  have hnoted : Noted 1 (begun s) u := .of_loaded hstart.opened hchecked.loaded
  -- the operations before it
  have hopened : Contained anyCustody (withDelta 1 u) := hcu.of_eq rfl (fun _ hp => hp) rfl rfl
  have hnoting₂ : Noting 2 (withDelta 1 u) := (hnoted.noting hstart.opened).opened
  have hadmits : ∀ o ∈ pre, Passes app env o.1 → Admits (anyCustody.of env o.1) o.1 :=
    fun o _ _ => admits_any env o.1
  have hcv : Contained anyCustody v :=
    (of_wp_ok (keepsContained_applyOperations hadmits _ hopened) hpre).1
  have hinv : Inside [] 2 v :=
    (of_wp_ok (keepsOrder_applyOperations hadmits [] _ hopened hin.opened) hpre).1
  have htidy : Tidy 2 v := (of_wp_ok (wp_applyOperations_reversed hopened hnoting₂) hpre).1.tidy
  have hct : Contained anyCustody (withDelta 2 v) := hcv.of_eq rfl (fun _ hp => hp) rfl rfl
  exact ⟨hct, hinv.coherent, fun id row hrow => (hcv.rows id row hrow).1, htidy.lines⟩

/-- A transaction does not succeed if one of its operations fails. -/
theorem OperationAt.not_applies (h : OperationAt app env s op fee t) (hs : Ordered s)
    (hfails : OperationFrame.apply app env 3 op fee t = .ok false u) :
    applies app env s = false := by
  obtain ⟨pre, post, v, failed, w, hops, hchecks, hpre, rfl⟩ := h
  rw [← Bool.not_eq_true, applies_iff]
  intro hok
  obtain ⟨x, hok⟩ := hok
  have hbegun : Contained anyCustody (begun s) := hs.contained.newFrames rfl (fun _ hp => hp) rfl rfl
  have hsucceeded : Succeeded app env (begun s) x :=
    (of_wp_ok (wp_apply (admitsAll_anyCustody app env) hbegun ⟨hs.coherent, nofun⟩) hok).1 rfl
  obtain ⟨v', y, -, hchecks', -, hsucceeds, -⟩ := hsucceeded.reflects
  obtain rfl : v = v' := by
    rw [hchecks] at hchecks'
    cases hchecks'
    rfl
  have hall := hsucceeds.operations
  rw [hops] at hall
  obtain ⟨w', z, z', hpre', hstep⟩ := operationStep_of_append hall
  obtain rfl : w = w' := by
    rw [hpre] at hpre'
    cases hpre'
    rfl
  -- the operation has succeeded
  have hcontra := hfails.symm.trans hstep.apply
  cases hcontra

/-! ## Reversals -/

/-- A transaction of a ledger that a node closes. -/
def TransactionAt (app : Application) (s₀ : LedgerState) (env : TransactionEnvelope)
    (s : LedgerState) : Prop :=
  ∃ data txs rest, data.txs = txs ++ env :: rest ∧ beforeTransaction app data txs s₀ = .ok () s

theorem TransactionAt.noting {s₀ : LedgerState} (h : TransactionAt app s₀ env s) (hs : AtRest s₀) :
    Ordered s ∧ Noting 0 s := by
  obtain ⟨data, txs, rest, -, hbefore⟩ := h
  exact of_wp_ok (Q := fun _ s => Ordered s ∧ Noting 0 s) (wp_beforeTransaction_noting hs) hbefore

/-- **Main theorem**: a payment is reversed at most once, and a transaction that fails marks none. A
reversal that succeeds changes the three lines by its amounts exactly if the sums fit. -/
theorem reversed_once_and_settled_iff {done : List TransactionEnvelope}
    {batches : List (Batch LedgerEntry LedgerKey)} {s₀ : LedgerState}
    (hlived : Lived app done batches s₀) :
    (∀ rID, (done.flatMap reversals).count rID ≤ 1) ∧
      ∀ env s, TransactionAt app s₀ env s →
        (∀ t, applyTransaction app env s = .ok () t →
          (applies app env s = false ∨ ∃ op fee u v, OperationAt app env s op fee u ∧
            OperationFrame.apply app env 3 op fee u = .ok false v) →
              ∀ rID : ℤ, rID ∈ t.db.reversedPayment ↔ rID ∈ s.db.reversedPayment) ∧
        ∀ op fee o u v, OperationAt app env s op fee u → op.body = .PAYMENT_REVERSAL o →
          InRange o.amount → InRange o.commissionAmount → Distinct app (getSourceID env op) o →
            OperationFrame.apply app env 3 op fee u = .ok true v →
              (Settled app (getSourceID env op) o u v ↔ SumsFit app (getSourceID env op) o u) := by
  have hrecorded := hlived.recorded
  refine ⟨List.nodup_iff_count_le_one.mp hrecorded.nodup, fun env s hat => ?_⟩
  obtain ⟨hordered, hnoting⟩ := hat.noting hrecorded.atRest
  refine ⟨fun t happly hfails => ?_,
    fun op fee o u v hop hbody hamount hcommission hdistinct hok => ?_⟩
  · have hno : applies app env s = false := by
      rcases hfails with hno | ⟨op, fee, u, v, hop, hfails⟩
      · exact hno
      · exact hop.not_applies hordered hfails
    have hreversed := of_wp_ok (wp_applyTransaction_reversed hordered hnoting) happly
    rw [hno] at hreversed
    intro rID
    simpa using hreversed.once.marks rID
  · obtain ⟨hcontained, hreadable⟩ := hop.readable hordered hnoting
    exact of_wp_ok (wp_apply_settled hcontained hreadable hbody hamount hcommission hdistinct)
      hok rfl

/-! ### Examples -/

/-- The bank issues as much as there can be: most of it to account 5, and a little to account 6 and
to that of commissions. -/
def issueAll : LedgerCloseData where
  closeTime := 10
  txs :=
    [signedBy 1 1 1 [⟨none, .SET_OPTIONS { signer := some ⟨11, 1, 0⟩ }⟩] [.opFEE_NONE],
      signedBy 11 1 2 [⟨none, .PAYMENT ⟨5, usd, INT64_MAX - 2⟩⟩, ⟨none, .PAYMENT ⟨2, usd, 1⟩⟩,
        ⟨none, .PAYMENT ⟨6, usd, 1⟩⟩] [.opFEE_NONE, .opFEE_NONE, .opFEE_NONE]]

/-- A payment of account 6 is given back. -/
def giveBack (amount commissionAmount : ℤ) : PaymentReversalOp :=
  { paymentSource := 6, asset := usd, amount, commissionAmount, paymentID := 9 }

/-- A transaction that reverses one payment. -/
def reversal (key source seqNum : ℕ) (o : PaymentReversalOp) : TransactionEnvelope :=
  signedBy key source seqNum [⟨none, .PAYMENT_REVERSAL o⟩] [.opFEE_NONE]

/-- What its operation finds, and leaves. -/
theorem reversal_at {key source seqNum : ℕ} {o : PaymentReversalOp}
    {P : LedgerState → LedgerState → Bool}
    (h : returns (runLedgers exampleBank [issueAll]) (fun _ s₀ =>
      returns (beforeTransaction exampleBank ⟨20, [reversal key source seqNum o], []⟩ [])
        (fun _ s =>
        applies exampleBank (reversal key source seqNum o) s &&
        returns (checks exampleBank (reversal key source seqNum o)) (fun _ u =>
          returns (OperationFrame.apply exampleBank (reversal key source seqNum o) 3
              ⟨none, .PAYMENT_REVERSAL o⟩ (some .opFEE_NONE))
            (fun succeeded v => succeeded && P (withDelta 2 (withDelta 1 u)) v)
            (withDelta 2 (withDelta 1 u))) (begun s)) s₀) {} = true) :
    ∃ done batches s₀ s u v, Lived exampleBank done batches s₀ ∧
      TransactionAt exampleBank s₀ (reversal key source seqNum o) s ∧
      applies exampleBank (reversal key source seqNum o) s = true ∧
      OperationAt exampleBank (reversal key source seqNum o) s ⟨none, .PAYMENT_REVERSAL o⟩
        (some .opFEE_NONE) u ∧
      OperationFrame.apply exampleBank (reversal key source seqNum o) 3 ⟨none, .PAYMENT_REVERSAL o⟩
        (some .opFEE_NONE) u = .ok true v ∧ P u v = true := by
  obtain ⟨_, s₀, hledgers, h⟩ := exists_of_returns h
  obtain ⟨_, s, hbefore, h⟩ := exists_of_returns h
  rw [Bool.and_eq_true] at h
  obtain ⟨_, u, hchecks, hrun⟩ := exists_of_returns h.2
  obtain ⟨succeeded, v, happly, hP⟩ := exists_of_returns hrun
  rw [Bool.and_eq_true] at hP
  obtain ⟨rfl, hP⟩ := hP
  obtain ⟨done, batches, hlived⟩ := Lived.of_runLedgers hledgers
  exact ⟨done, batches, s₀, s, _, v, hlived, ⟨_, [], [], rfl, hbefore⟩, h.1,
    ⟨[], [], u, false, _, rfl, hchecks, rfl, rfl⟩, happly, hP⟩

/-- Account 5 gives back ten, with a commission of one. -/
theorem reversed_once_and_settled_iff_ten :
    ∃ done batches s₀ s u v, Lived exampleBank done batches s₀ ∧
      TransactionAt exampleBank s₀ (reversal 5 5 1 (giveBack 10 1)) s ∧
      OperationAt exampleBank (reversal 5 5 1 (giveBack 10 1)) s
        ⟨none, .PAYMENT_REVERSAL (giveBack 10 1)⟩ (some .opFEE_NONE) u ∧
      OperationFrame.apply exampleBank (reversal 5 5 1 (giveBack 10 1)) 3
        ⟨none, .PAYMENT_REVERSAL (giveBack 10 1)⟩ (some .opFEE_NONE) u = .ok true v ∧
      Settled exampleBank 5 (giveBack 10 1) u v := by
  obtain ⟨done, batches, s₀, s, u, v, hlived, hat, -, hop, happly, hheld⟩ :=
    @reversal_at 5 5 1 (giveBack 10 1) (fun u _ => holding u.db 2 usd = 1 ∧
      holding u.db 5 usd = INT64_MAX - 2 ∧ holding u.db 6 usd = 1) (by decide +kernel)
  obtain ⟨hcommission, hsource, hsender⟩ := of_decide_eq_true hheld
  have hsums : SumsFit exampleBank 5 (giveBack 10 1) u := by
    refine ⟨fun _ => ?_, fun _ => ?_, fun _ => ?_⟩
    · rw [show holding u.db exampleBank.BANK_COMMISSION_KEY (giveBack 10 1).asset = 1 from
        hcommission]
      decide
    · rw [show holding u.db 5 (giveBack 10 1).asset = INT64_MAX - 2 from hsource]
      decide
    · rw [show holding u.db (giveBack 10 1).paymentSource (giveBack 10 1).asset = 1 from hsender]
      decide
  have hsettled := ((reversed_once_and_settled_iff hlived).2 _ s hat).2 _ _ _ u v hop rfl
    ⟨by decide, by decide⟩ ⟨by decide, by decide⟩ ⟨by decide, by decide, by decide⟩ happly
  exact ⟨done, batches, s₀, s, u, v, hlived, hat, hop, happly, hsettled.mpr hsums⟩

/-- The bank has issued as much as there can be, and takes back two more. Its line wraps around. -/
theorem reversal_wraps :
    ∃ done batches s₀ s u v, Lived exampleBank done batches s₀ ∧
      TransactionAt exampleBank s₀ (reversal 11 1 3 (giveBack 2 0)) s ∧
      applies exampleBank (reversal 11 1 3 (giveBack 2 0)) s = true ∧
      OperationAt exampleBank (reversal 11 1 3 (giveBack 2 0)) s
        ⟨none, .PAYMENT_REVERSAL (giveBack 2 0)⟩ (some .opFEE_NONE) u ∧
      OperationFrame.apply exampleBank (reversal 11 1 3 (giveBack 2 0)) 3
        ⟨none, .PAYMENT_REVERSAL (giveBack 2 0)⟩ (some .opFEE_NONE) u = .ok true v ∧
      Distinct exampleBank 1 (giveBack 2 0) ∧ holding u.db 1 usd = -INT64_MAX ∧
        holding v.db 1 usd = INT64_MAX ∧ ¬ Settled exampleBank 1 (giveBack 2 0) u v := by
  obtain ⟨done, batches, s₀, s, u, v, hlived, hat, happlies, hop, happly, hheld⟩ :=
    @reversal_at 11 1 3 (giveBack 2 0) (fun u v => holding u.db 1 usd = -INT64_MAX ∧
      holding v.db 1 usd = INT64_MAX) (by decide +kernel)
  obtain ⟨hbefore, hafter⟩ := of_decide_eq_true hheld
  refine ⟨done, batches, s₀, s, u, v, hlived, hat, happlies, hop, happly,
    ⟨by decide, by decide, by decide⟩, hbefore, hafter, fun hsettled => ?_⟩
  have hsource : holding v.db 1 usd = holding u.db 1 usd - (2 - 0) := hsettled.source
  rw [hbefore, hafter] at hsource
  exact absurd hsource (by decide)

end SmartCore.Transactions
