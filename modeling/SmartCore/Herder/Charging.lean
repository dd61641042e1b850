import SmartCore.Herder.ApplyOrder
import SmartCore.Ledger.Rows

/-!
# Valid sets can be charged

Before the transactions of a set are applied, `processFeesSeqNums` takes their sequence numbers, one
by one in the order of `sortForApply`. It throws if the account of a transaction is not there or
does not have the sequence number before, which "should not happen as the transaction set is
sanitized for sequence numbers".

`checkValid` checks the transactions of each account in the order of their sequence numbers, each
after the sequence number of the one before. But 0 stands for the sequence number that the account
has in the ledger. If that is the last one there is, the next is 0, and so is the one after that:
the set may have any number of transactions with the sequence number 0, and only the first of them
can be charged.

**Theorem (`charged_iff`).** A valid set can be charged exactly if no account has two transactions
with the sequence number 0 in it.
-/

namespace SmartCore.Herder

open SmartCore.Ledger SmartCore.Transactions TxSetFrame

variable {s t : LedgerState} {herder : HerderImpl} {tx : Tx} {txs : List Tx}

/-! ## Sequence numbers -/

/-- The sequence number of each account. -/
abbrev SeqNums := AccountID → Option ℕ

/-- Takes the sequence number of one transaction. -/
def takeSeqNum (seqNums : SeqNums) (tx : Tx) : Option SeqNums :=
  match seqNums (getSourceID tx) with
  | none => none
  | some seqNum =>
    if (seqNum + 1) % 2 ^ 64 = getSeqNum tx then
      some (Function.update seqNums (getSourceID tx) (some (getSeqNum tx)))
    else none

/-- Each sequence number comes after the one before. -/
def Successive : ℕ → List ℕ → Prop
  | _, [] => True
  | last, seqNum :: seqNums => (last + 1) % 2 ^ 64 = seqNum ∧ Successive seqNum seqNums

/-- The transactions of one account can be charged. -/
def Chargeable (seqNum : Option ℕ) (txs : List Tx) : Prop :=
  match seqNum with
  | none => txs = []
  | some seqNum => Successive seqNum (txs.map getSeqNum)

theorem takeSeqNum_eq_some {seqNums seqNums' : SeqNums} :
    takeSeqNum seqNums tx = some seqNums' ↔ ∃ seqNum, seqNums (getSourceID tx) = some seqNum ∧
      (seqNum + 1) % 2 ^ 64 = getSeqNum tx ∧
      seqNums' = Function.update seqNums (getSourceID tx) (some (getSeqNum tx)) := by
  unfold takeSeqNum
  cases seqNums (getSourceID tx) with
  | none => simp
  | some seqNum =>
    dsimp only
    split_ifs with h
    · constructor
      · intro heq
        exact ⟨seqNum, rfl, h, (Option.some.inj heq).symm⟩
      · rintro ⟨-, -, -, rfl⟩
        rfl
    · constructor
      · exact nofun
      · rintro ⟨seqNum', hseq, hnext, -⟩
        cases hseq
        exact absurd hnext h

theorem txsOf_cons (tx : Tx) (txs : List Tx) (id : AccountID) :
    txsOf (tx :: txs) id = if getSourceID tx = id then tx :: txsOf txs id else txsOf txs id := by
  simp only [txsOf, List.filter_cons, decide_eq_true_eq]

/-- **Accounts are charged independently.** -/
theorem foldlM_takeSeqNum_isSome (seqNums : SeqNums) (txs : List Tx) :
    (txs.foldlM takeSeqNum seqNums).isSome ↔
      ∀ id, Chargeable (seqNums id) (txsOf txs id) := by
  induction txs generalizing seqNums with
  | nil =>
    refine iff_of_true rfl fun id => ?_
    cases h : seqNums id with
    | none => rfl
    | some seqNum => exact trivial
  | cons tx txs ih =>
    rw [List.foldlM_cons]
    cases htake : takeSeqNum seqNums tx with
    | none =>
      refine iff_of_false (by simp) fun h => ?_
      have hsource := h (getSourceID tx)
      rw [txsOf_cons, if_pos rfl] at hsource
      cases hseq : seqNums (getSourceID tx) with
      | none =>
        rw [hseq] at hsource
        cases hsource
      | some seqNum =>
        rw [hseq] at hsource
        have hsome := takeSeqNum_eq_some.mpr ⟨seqNum, hseq, hsource.1, rfl⟩
        rw [htake] at hsome
        cases hsome
    | some seqNums' =>
      obtain ⟨seqNum, hseq, hnext, rfl⟩ := takeSeqNum_eq_some.mp htake
      refine (ih _).trans (forall_congr' fun id => ?_)
      rw [txsOf_cons]
      by_cases hid : getSourceID tx = id
      · subst hid
        rw [Function.update_self, if_pos rfl, hseq]
        exact ⟨fun h => ⟨hnext, h⟩, fun h => h.2⟩
      · rw [Function.update_of_ne (Ne.symm hid), if_neg hid]

/-! ## Valid sets -/

/-- The sequence numbers of the transactions of an account, in the order to apply them in. -/
theorem seqNums_sortForApply (herder : HerderImpl) (sha256 : ℕ → List Tx → ℕ)
    (txSet : TxSetFrame) (id : AccountID) :
    (txsOf (sortForApply herder sha256 txSet) id).map getSeqNum =
      (sortedOf herder txSet.mTransactions id).map getSeqNum := by
  rw [txsOf_sortForApply]
  -- both are sorted, and ties do not show
  refine List.Perm.eq_of_sortedLE (List.Pairwise.sortedLE ?_) (List.Pairwise.sortedLE ?_) ?_
  · exact List.pairwise_map.mpr ((bySeqNum_sorted txSet).filter _)
  · exact List.pairwise_map.mpr (sortedOf_sorted _ id)
  · exact (((bySeqNum_perm txSet).filter _).trans (sortedOf_perm _ id).symm).map _

/-- After a sequence number that is not 0, the transactions that are valid are successive. -/
theorem successive_of_validFrom (hrows : RowsValid s) {lastSeq : ℕ}
    (h : ValidFrom herder s lastSeq txs) (hlast : lastSeq ≠ 0)
    (hpos : ∀ tx ∈ txs, getSeqNum tx ≠ 0) : Successive lastSeq (txs.map getSeqNum) := by
  induction txs generalizing lastSeq with
  | nil => exact trivial
  | cons tx txs ih =>
    obtain ⟨a, -, -, hseq⟩ := checkTx_of_isValid hrows h.1
    rw [nextSeq, if_neg hlast] at hseq
    refine ⟨hseq.symm, ih h.2 (hpos tx List.mem_cons_self) fun x hx => ?_⟩
    exact hpos x (List.mem_cons_of_mem _ hx)

theorem successive_iff_of_zero {last : ℕ} {seqNums : List ℕ} (hlast : (last + 1) % 2 ^ 64 = 0)
    (hzero : ∀ n ∈ seqNums, n = 0) : Successive last seqNums ↔ seqNums.length ≤ 1 := by
  match seqNums with
  | [] => exact iff_of_true trivial (Nat.zero_le _)
  | [n] => exact iff_of_true ⟨by rw [hlast, hzero n List.mem_cons_self], trivial⟩ le_rfl
  | n :: m :: rest =>
    refine iff_of_false (fun h => ?_) (by simp)
    have hnext := h.2.1
    rw [hzero n List.mem_cons_self, hzero m (by simp)] at hnext
    exact absurd hnext (by decide)

/-- How many transactions with the sequence number 0 an account has in the set. -/
def zeros (txs : List Tx) (id : AccountID) : ℕ := (txsOf txs id).countP (getSeqNum · = 0)

/-- **The transactions of an account can be charged** exactly if not two have the sequence number
0. -/
theorem successive_iff (hrows : RowsValid s) {id : AccountID} {a : AccountFrame}
    (haccount : account s id = some a) (h : ValidFrom herder s 0 (sortedOf herder txs id)) :
    Successive a.mAccountEntry.seqNum ((sortedOf herder txs id).map getSeqNum) ↔
      zeros txs id ≤ 1 := by
  have hcount : zeros txs id = (sortedOf herder txs id).countP (getSeqNum · = 0) :=
    ((sortedOf_perm txs id).countP_eq _).symm
  have hid : ∀ tx ∈ sortedOf herder txs id, getSourceID tx = id := fun tx htx =>
    (mem_sortedOf.mp htx).2
  have hsorted : (sortedOf herder txs id).Pairwise fun a b => getSeqNum a ≤ getSeqNum b :=
    sortedOf_sorted txs id
  rw [hcount]
  cases hl : sortedOf herder txs id with
  | nil => exact iff_of_true trivial (Nat.zero_le _)
  | cons tx rest =>
    rw [hl] at h hid hsorted
    obtain ⟨b, -, hb, hseq⟩ := checkTx_of_isValid hrows h.1
    rw [hid tx List.mem_cons_self, haccount] at hb
    obtain rfl := Option.some.inj hb
    by_cases hzero : getSeqNum tx = 0
    · -- the sequence numbers have wrapped around: all of them are 0
      have hall := h.all_zero hrows haccount (hseq.symm.trans hzero) hid
      have hlength : (tx :: rest).countP (getSeqNum · = 0) = (tx :: rest).length :=
        List.countP_eq_length.mpr fun x hx => decide_eq_true (hall x hx).1
      rw [hlength, ← List.length_map (f := getSeqNum)]
      refine successive_iff_of_zero (hseq.symm.trans hzero) fun n hn => ?_
      obtain ⟨x, hx, rfl⟩ := List.mem_map.mp hn
      exact (hall x hx).1
    · obtain ⟨hle, -⟩ := List.pairwise_cons.mp hsorted
      have hpos : ∀ x ∈ rest, getSeqNum x ≠ 0 := by
        intro x hx
        have := hle x hx
        omega
      have hnone : (tx :: rest).countP (getSeqNum · = 0) = 0 := by
        refine List.countP_eq_zero.mpr fun x hx => ?_
        rcases List.mem_cons.mp hx with rfl | hx
        · simp [hzero]
        · simp [hpos x hx]
      rw [hnone]
      exact iff_of_true ⟨hseq.symm, successive_of_validFrom hrows h.2 hzero hpos⟩ (Nat.zero_le _)

/-! ## Accounts in the ledger -/

/-- The accounts in the ledger, and the cache in front of them. -/
structure AccountsWellFormed (s : LedgerState) : Prop where
  rows : ∀ id row, s.db.accounts[id]? = some row → RowWellFormed id row
  coherent : Coherent s

/-- **A load finds the row**, also in the cache. -/
theorem account_eq (h : Coherent s) (id : AccountID) :
    ∃ b, account s id = s.db.accounts[id]?.map (AccountFrame.ofRow · b) := by
  unfold account
  cases hcached : s.mEntryCache.lookup (.account id) with
  | none => exact ⟨false, AccountFrame.selectAccount_ofRow s id false⟩
  | some p =>
    obtain ⟨l₁, l₂, heq, -⟩ := List.lookup_eq_some_iff.mp hcached
    have hmem : (LedgerKey.account id, p) ∈ s.mEntryCache := by
      rw [heq]
      exact List.mem_append_right _ List.mem_cons_self
    rw [h _ _ hmem]
    exact ⟨true, AccountFrame.selectAccount_ofRow s id true⟩

theorem AccountsWellFormed.rowsValid (h : AccountsWellFormed s) : RowsValid s := by
  intro id f hf
  rw [AccountFrame.selectAccount_ofRow] at hf
  obtain ⟨row, hrow, rfl⟩ := Option.map_eq_some_iff.mp hf
  exact AccountFrame.isValid_ofRow (h.rows id row hrow) false

/-! ## Charging a transaction -/

def seqNumsOf (s : LedgerState) : SeqNums := fun id => s.db.accounts[id]?.map (·.entry.seqNum)

/-- A delta in which nothing is created or deleted. -/
def OnlyModifies (δ : LedgerDelta) : Prop := ∀ k, k ∉ δ.mNew ∧ k ∉ δ.mDelete

/-- The account of a row with its next sequence number. -/
def withSeqNum (f : AccountFrame) (seqNum : ℕ) : AccountFrame :=
  { f with mAccountEntry := { f.mAccountEntry with seqNum } }

theorem wp_loadAccount (h : AccountsWellFormed s) (d : ℕ) (id : AccountID) :
    wp (AccountFrame.loadAccount d id) (fun r t => r = account s id ∧ Loaded d s t)
      (fun _ _ => False) s := by
  have hload : wp (AccountFrame.loadAccount d id) (fun r _ => r = account s id)
      (fun _ _ => False) s := by
    rw [AccountFrame.loadAccount, wp_bind]
    refine wp_mono (wp_loadAccountDb id h.rowsValid) (fun r t ht => ?_) fun _ _ h => h
    cases r with
    | none => exact ht.1
    | some f =>
      simp only [recordEntry, wp_bind, wp_updateDelta, wp_pure]
      exact ⟨fun _ _ => ht.1, nofun⟩
  exact wp_mono (wp_and hload (AccountFrame.wpLoaded_loadAccount d id s)) (fun _ _ h => h)
    fun _ _ h => h.1

/-- What charging a transaction does in its delta. -/
structure Charges (d : ℕ) (tx : Tx) (s t : LedgerState) : Prop where
  accounts : AccountsWellFormed t
  delta : ∀ i ≠ d, t.deltas i = s.deltas i
  header : (s.deltas d).SameHeader (t.deltas d)
  modifies : OnlyModifies (t.deltas d)
  taken : takeSeqNum (seqNumsOf s) tx = some (seqNumsOf t)

theorem rowWellFormed_withSeqNum {id : AccountID} {row : Row AccountEntry}
    (h : RowWellFormed id row) (b : Bool) (seqNum lastmodified : ℕ) :
    RowWellFormed id
      ⟨{ (withSeqNum (AccountFrame.ofRow row b) seqNum).mAccountEntry with
          signers := (withSeqNum (AccountFrame.ofRow row b) seqNum).storedSigners row },
        lastmodified⟩ := by
  refine ⟨h.key, h.homeDomain, h.balance, ?_⟩
  by_cases hb : b = true
  · subst hb
    show ((AccountFrame.mergeSigners (if row.entry.numSubEntries ≠ 0 then row.entry.signers else [])
      row.entry.signers).map (·.pubKey)).Pairwise (· < ·)
    split_ifs
    · rw [AccountFrame.mergeSigners_self]
      exact h.signers
    · exact List.Pairwise.nil
  · obtain rfl := Bool.eq_false_of_not_eq_true hb
    exact h.signers

/-- Storing the account of a transaction, once it is loaded. -/
theorem wp_store_withSeqNum (tx : Tx) {d : ℕ} {row : Row AccountEntry} {b : Bool}
    (h : AccountsWellFormed s) (hseq : (s.deltas d).mCurrentHeader.ledgerSeq ≠ 0)
    (hmod : OnlyModifies (s.deltas d)) (hrow : s.db.accounts[getSourceID tx]? = some row)
    (hnext : (row.entry.seqNum + 1) % 2 ^ 64 = getSeqNum tx) :
    wp ((withSeqNum (AccountFrame.ofRow row b) (getSeqNum tx)).storeChange d)
      (fun _ t => Charges d tx s t) (fun _ _ => False) s := by
  have hwf := h.rows _ row hrow
  have hid : (withSeqNum (AccountFrame.ofRow row b) (getSeqNum tx)).getID = getSourceID tx :=
    hwf.key
  have hstorable : (withSeqNum (AccountFrame.ofRow row b) (getSeqNum tx)).Storable d s :=
    ⟨AccountFrame.isValid_ofRow hwf b, hseq, (hmod _).2, by simp [hid, hrow],
      (AccountFrame.signers_ofRow hwf b).imp fun hlt => hlt.ne⟩
  refine wp_mono (wp_and AccountFrame.wp_storeChange_row (AccountFrame.wp_storeChange (d := d)))
    (fun f' t ht => ?_) fun _ _ h => h.1.2 hstorable
  obtain ⟨⟨hwrote, -⟩, hstored⟩ := ht
  obtain ⟨row₀, lastmodified, hrow₀, hself, hother⟩ := hwrote.row
  rw [hid] at hrow₀ hself hother
  obtain rfl := Option.some.inj (hrow.symm.trans hrow₀)
  refine ⟨⟨fun id' row' hrow' => ?_, h.coherent.stored hstored⟩, hstored.delta, hstored.header,
    fun k => ?_, ?_⟩
  · by_cases hids : id' = getSourceID tx
    · subst hids
      rw [hself] at hrow'
      obtain rfl := Option.some.inj hrow'
      exact rowWellFormed_withSeqNum hwf b (getSeqNum tx) lastmodified
    · rw [hother id' hids] at hrow'
      exact h.rows id' row' hrow'
  · by_cases hk : k = (withSeqNum (AccountFrame.ofRow row b) (getSeqNum tx)).getKey
    · subst hk
      obtain ⟨hnew, hdel, -⟩ := hstored.change rfl
      exact ⟨fun hmem => (hmod _).1 (hnew.mp hmem), fun hmem => (hmod _).2 (hdel.mp hmem)⟩
    · obtain ⟨hnew, -, hdel⟩ := hstored.same k hk
      exact ⟨fun hmem => (hmod k).1 (hnew.mp hmem), fun hmem => (hmod k).2 (hdel.mp hmem)⟩
  · refine takeSeqNum_eq_some.mpr ⟨row.entry.seqNum, ?_, hnext, funext fun id' => ?_⟩
    · rw [seqNumsOf, hrow]
      rfl
    · by_cases hids : id' = getSourceID tx
      · subst hids
        rw [Function.update_self, seqNumsOf, hself]
        rfl
      · rw [Function.update_of_ne hids, seqNumsOf, hother id' hids]
        rfl

/-- **Charging a transaction** takes its sequence number, or throws if it cannot be taken. -/
theorem wp_processFeeSeqNum (tx : Tx) {d : ℕ} (h : AccountsWellFormed s)
    (hseq : (s.deltas d).mCurrentHeader.ledgerSeq ≠ 0) (hmod : OnlyModifies (s.deltas d)) :
    wp (TransactionFrame.processFeeSeqNum tx d) (fun _ t => Charges d tx s t)
      (fun _ _ => takeSeqNum (seqNumsOf s) tx = none) s := by
  simp only [TransactionFrame.processFeeSeqNum, TransactionFrame.resetSignatureTracker,
    TransactionFrame.loadSigningAccount, TransactionFrame.loadAccount, TransactionFrame.loadFrame,
    wp_bind, wp_modify, wp_get, wp_pure]
  have hreset : AccountsWellFormed { s with
      mSigningAccount := none, mUsedSignatures := List.replicate tx.signatures.length false } :=
    ⟨h.rows, h.coherent⟩
  refine wp_mono (wp_loadAccount hreset d _) (fun r t ht => ?_) fun _ _ h => h.elim
  obtain ⟨rfl, hloaded⟩ := ht
  obtain ⟨b, haccount⟩ := account_eq hreset.coherent tx.tx.sourceAccount
  rw [haccount]
  cases hrow : s.db.accounts[getSourceID tx]? with
  | none =>
    have hnone : takeSeqNum (seqNumsOf s) tx = none := by
      unfold takeSeqNum seqNumsOf
      rw [hrow]
      rfl
    have hrow : s.db.accounts[tx.tx.sourceAccount]? = none := hrow
    simp only [hrow, Option.map_none]
    exact hnone
  | some row =>
    have hrow' : s.db.accounts[tx.tx.sourceAccount]? = some row := hrow
    simp only [hrow', Option.map_some, wp_ite, wp_throw, wp_bind, wp_modify]
    refine ⟨fun hne => ?_, fun heq => ?_⟩
    · unfold takeSeqNum seqNumsOf
      rw [hrow]
      exact if_neg hne
    · have hwf : AccountsWellFormed
          { t with mSigningAccount := some (AccountFrame.ofRow row b) } := by
        have hcoherent : Coherent t := hreset.coherent.loaded hloaded
        refine ⟨fun id row' hrow' => ?_, hcoherent⟩
        rw [show t.db = s.db from hloaded.db] at hrow'
        exact h.rows id row' hrow'
      have hmod' : OnlyModifies (t.deltas d) := by
        intro k
        obtain ⟨hnew, -, hdel⟩ := hloaded.same k
        exact ⟨fun hmem => (hmod k).1 (hnew.mp hmem), fun hmem => (hmod k).2 (hdel.mp hmem)⟩
      refine wp_mono (wp_store_withSeqNum tx (b := b) hwf
        (hloaded.header.1 ▸ hseq) hmod' (hloaded.db ▸ hrow) (not_not.mp heq)) (fun f' u hu => ?_)
        fun _ _ h => h.elim
      have hseqs : seqNumsOf t = seqNumsOf s := by
        unfold seqNumsOf
        rw [show t.db = s.db from hloaded.db]
      refine ⟨⟨hu.accounts.rows, hu.accounts.coherent⟩,
        fun i hi => (hu.delta i hi).trans (hloaded.delta i hi), ?_, hu.modifies, ?_⟩
      · exact ⟨hu.header.1.trans hloaded.header.1, hu.header.2.trans hloaded.header.2⟩
      · rw [← hseqs]
        exact hu.taken

/-! ## Charging a set -/

theorem modEntry_of_onlyModifies {δ : LedgerDelta} (h : OnlyModifies δ) (e : LedgerEntry) :
    ∃ δ', δ.modEntry e = some δ' ∧ OnlyModifies δ' := by
  unfold LedgerDelta.modEntry
  dsimp only
  rw [if_neg (h _).1, if_neg (h _).2, ite_self]
  exact ⟨_, rfl, h⟩

theorem mergeModified_of_onlyModifies {δ : LedgerDelta} (h : OnlyModifies δ) (inner : LedgerDelta)
    (entries : List (LedgerKey × LedgerEntry)) :
    ∃ δ', δ.mergeModified inner entries = some δ' ∧ OnlyModifies δ' := by
  induction entries generalizing δ with
  | nil => exact ⟨δ, rfl, h⟩
  | cons m entries ih =>
    obtain ⟨δ₁, hmod, h₁⟩ := modEntry_of_onlyModifies h m.2
    have hrecord : OnlyModifies (δ₁.recordPrevious inner m.1) := by
      intro k
      obtain ⟨hnew, -, hdel⟩ := LedgerDelta.same_recordPrevious k m.1 δ₁ inner
      exact ⟨fun hmem => (h₁ k).1 (hnew.mp hmem), fun hmem => (h₁ k).2 (hdel.mp hmem)⟩
    obtain ⟨δ', hrest, h'⟩ := ih hrecord
    refine ⟨δ', ?_, h'⟩
    unfold LedgerDelta.mergeModified at hrest ⊢
    rw [List.foldlM_cons, hmod]
    exact hrest

theorem mergeEntries_of_onlyModifies {δ inner : LedgerDelta} (h : OnlyModifies δ)
    (hinner : OnlyModifies inner) :
    ∃ δ', δ.mergeEntries inner = some δ' ∧ OnlyModifies δ' := by
  have hdeleted : inner.mDelete.keys = [] := List.eq_nil_iff_forall_not_mem.mpr fun k hk =>
    (hinner k).2 (Std.ExtTreeMap.mem_keys.mp hk)
  have hnew : inner.mNew.toList = [] := List.eq_nil_iff_forall_not_mem.mpr fun x hx =>
    (hinner x.1).1 (Std.ExtTreeMap.mem_iff_isSome_getElem?.mpr
      (by rw [Std.ExtTreeMap.mem_toList_iff_getElem?_eq_some.mp hx]; rfl))
  obtain ⟨δ', hmod, h'⟩ := mergeModified_of_onlyModifies h inner inner.mMod.toList
  refine ⟨δ', ?_, h'⟩
  unfold LedgerDelta.mergeEntries
  rw [hdeleted, hnew]
  exact hmod

/-- The ledger while its transactions are charged. -/
structure Charging (s : LedgerState) : Prop where
  accounts : AccountsWellFormed s
  seq : (s.deltas 0).mCurrentHeader.ledgerSeq ≠ 0
  modifies : OnlyModifies (s.deltas 0)

/-- The body of the loop of `processFeesSeqNums`. -/
def chargeTx (env : Tx) : LedgerM Unit := nested 0 (TransactionFrame.processFeeSeqNum env 1)

/-- **One step of the loop.** -/
theorem wp_chargeTx (h : Charging s) :
    wp (chargeTx tx) (fun _ t => Charging t ∧ takeSeqNum (seqNumsOf s) tx = some (seqNumsOf t))
      (fun _ _ => takeSeqNum (seqNumsOf s) tx = none) s := by
  simp only [chargeTx, nested, openDelta, wp_bind, wp_modify, wp_tryCatch, rollback, wp_throw]
  have hinner : (withDelta 0 s).deltas 1 = .ofHeader (s.deltas 0).mCurrentHeader
      (s.deltas 0).mUpdateLastModified := by simp [withDelta]
  have houter : (withDelta 0 s).deltas 0 = s.deltas 0 := by simp [withDelta]
  have hmod : OnlyModifies ((withDelta 0 s).deltas 1) := by
    rw [hinner]
    intro k
    simp [LedgerDelta.ofHeader]
  have hseq : ((withDelta 0 s).deltas 1).mCurrentHeader.ledgerSeq ≠ 0 := by
    rw [hinner]
    exact h.seq
  have hbody := wp_processFeeSeqNum tx (s := withDelta 0 s)
    ⟨h.accounts.rows, h.accounts.coherent⟩ hseq hmod
  refine wp_mono hbody (fun _ t ht => ?_) fun _ _ hnone => hnone
  simp only [commit, wp_bind, wp_get, wp_ite, wp_throw, wp_updateDelta, wp_pure]
  have hdelta : t.deltas 0 = s.deltas 0 := (ht.delta 0 (by decide)).trans houter
  have hheader : (t.deltas (0 + 1)).mPreviousHeaderValue = (t.deltas 0).mCurrentHeader := by
    rw [hdelta]
    exact ht.header.2.trans (by rw [hinner]; rfl)
  have hcurrent : (t.deltas (0 + 1)).mCurrentHeader = (s.deltas 0).mCurrentHeader :=
    ht.header.1.trans (by rw [hinner]; rfl)
  obtain ⟨δ, hmerge, hmerged⟩ := mergeEntries_of_onlyModifies
    (hdelta ▸ h.modifies : OnlyModifies (t.deltas 0)) ht.modifies
  refine ⟨fun hne => absurd hheader hne, fun _ => ⟨fun δ' hδ' => ?_, fun hnone => ?_⟩⟩
  · rw [hmerge] at hδ'
    obtain rfl := Option.some.inj hδ'
    refine ⟨⟨⟨ht.accounts.rows, ht.accounts.coherent⟩, ?_, ?_⟩, ht.taken⟩
    · simp only [Function.update_self]
      rw [hcurrent]
      exact h.seq
    · simp only [Function.update_self]
      exact hmerged
  · rw [hmerge] at hnone
    cases hnone

/-- **The loop.** -/
theorem wp_chargeTxs (h : Charging s) :
    wp (txs.forM chargeTx)
      (fun _ t => Charging t ∧ txs.foldlM takeSeqNum (seqNumsOf s) = some (seqNumsOf t))
      (fun _ _ => txs.foldlM takeSeqNum (seqNumsOf s) = none) s := by
  induction txs generalizing s with
  | nil => exact ⟨h, rfl⟩
  | cons tx txs ih =>
    show wp (chargeTx tx >>= fun _ => txs.forM chargeTx) _ _ s
    rw [wp_bind]
    refine wp_mono (wp_chargeTx h) (fun _ t ht => ?_) fun _ _ hnone => ?_
    · rw [List.foldlM_cons, ht.2]
      exact ih ht.1
    · rw [List.foldlM_cons, hnone]
      rfl

/-- `closeLedger` has set the close time and opened the delta of the ledger. -/
def opened (closeTime : ℕ) (s : LedgerState) : LedgerState :=
  let mCurrentLedger := { s.mCurrentLedger with closeTime }
  { s with mCurrentLedger, deltas := Function.update s.deltas 0 (.ofHeader mCurrentLedger) }

/-- Charging the transactions does not throw: when it is the turn of a transaction, its account is
there and has the sequence number before. -/
structure Charged (s : LedgerState) (txs : List Tx) : Prop where
  returned : ∃ t, LedgerManager.processFeesSeqNums txs s = .ok () t
  turns : ∀ before tx after, txs = before ++ tx :: after →
    ∃ t a, before.forM chargeTx s = .ok () t ∧ account t (getSourceID tx) = some a ∧
      (a.mAccountEntry.seqNum + 1) % 2 ^ 64 = getSeqNum tx

theorem charging_opened (h : AccountsWellFormed s) (hseq : s.mCurrentLedger.ledgerSeq ≠ 0)
    (closeTime : ℕ) : Charging (opened closeTime s) := by
  refine ⟨⟨h.rows, h.coherent⟩, ?_, fun k => ?_⟩
  · simpa [opened, LedgerDelta.ofHeader] using hseq
  · simp [opened, LedgerDelta.ofHeader]

/-- A transaction whose sequence number can be taken. -/
theorem account_of_takeSeqNum (h : AccountsWellFormed s) {seqNums : SeqNums}
    (htake : takeSeqNum (seqNumsOf s) tx = some seqNums) :
    ∃ a, account s (getSourceID tx) = some a ∧
      (a.mAccountEntry.seqNum + 1) % 2 ^ 64 = getSeqNum tx := by
  obtain ⟨seqNum, hseq, hnext, -⟩ := takeSeqNum_eq_some.mp htake
  obtain ⟨row, hrow, rfl⟩ := Option.map_eq_some_iff.mp hseq
  obtain ⟨b, haccount⟩ := account_eq h.coherent (getSourceID tx)
  rw [hrow] at haccount
  exact ⟨_, haccount, hnext⟩

/-- **Charging** is taking the sequence numbers. -/
theorem charged_iff_takes (h : Charging s) :
    Charged s txs ↔ (txs.foldlM takeSeqNum (seqNumsOf s)).isSome := by
  constructor
  · intro hcharged
    obtain ⟨t, ht⟩ := hcharged.returned
    have hwp : wp (LedgerManager.processFeesSeqNums txs)
        (fun _ _ => (txs.foldlM takeSeqNum (seqNumsOf s)).isSome) (fun _ _ => True) s := by
      simp only [LedgerManager.processFeesSeqNums, sqlTransaction, wp_bind, wp_get, wp_tryCatch,
        wp_modify, wp_throw]
      exact wp_mono (wp_chargeTxs h) (fun _ u hu => by rw [hu.2]; rfl) fun _ _ _ => trivial
    rw [wp, ht] at hwp
    exact hwp
  · intro hsome
    constructor
    · have hwp : wp (LedgerManager.processFeesSeqNums txs) (fun _ _ => True) (fun _ _ => False)
          s := by
        simp only [LedgerManager.processFeesSeqNums, sqlTransaction, wp_bind, wp_get, wp_tryCatch,
          wp_modify, wp_throw]
        refine wp_mono (wp_chargeTxs h) (fun _ _ _ => trivial) fun _ _ hnone => ?_
        rw [hnone] at hsome
        cases hsome
      obtain ⟨⟨⟩, t, ht, -⟩ := exists_of_wp hwp
      exact ⟨t, ht⟩
    · rintro before tx after rfl
      rw [List.foldlM_append] at hsome
      cases hbefore : before.foldlM takeSeqNum (seqNumsOf s) with
      | none =>
        rw [hbefore] at hsome
        cases hsome
      | some seqNums =>
        rw [hbefore] at hsome
        have hwp : wp (before.forM chargeTx)
            (fun _ t => AccountsWellFormed t ∧ seqNumsOf t = seqNums) (fun _ _ => False) s := by
          refine wp_mono (wp_chargeTxs h) (fun _ t ht => ⟨ht.1.accounts, ?_⟩) fun _ _ hnone => ?_
          · rw [hbefore] at ht
            exact (Option.some.inj ht.2).symm
          · rw [hbefore] at hnone
            cases hnone
        obtain ⟨⟨⟩, t, ht, hwf, rfl⟩ := exists_of_wp hwp
        cases htake : takeSeqNum (seqNumsOf t) tx with
        | none =>
          simp [List.foldlM_cons, htake] at hsome
        | some seqNums =>
          obtain ⟨a, ha, hnext⟩ := account_of_takeSeqNum hwf htake
          exact ⟨t, a, ht, ha, hnext⟩

/-- **A valid set can be charged** exactly if no account has two transactions with the sequence
number 0 in it. -/
theorem charged_iff (herder : HerderImpl) (sha256 : ℕ → List Tx → ℕ) (s : LedgerState)
    (closeTime : ℕ) (txSet : TxSetFrame) (h : AccountsWellFormed s)
    (hseq : s.mCurrentLedger.ledgerSeq ≠ 0)
    (hvalid : checkValid herder s txSet.mTransactions = .ok true) :
    Charged (opened closeTime s) (sortForApply herder sha256 txSet) ↔
      ∀ id, zeros txSet.mTransactions id ≤ 1 := by
  rw [charged_iff_takes (charging_opened h hseq closeTime), foldlM_takeSeqNum_isSome]
  refine forall_congr' fun id => ?_
  have hchain := (accepted_of_checkValid h.rowsValid hvalid).chains id
  have hseqs := seqNums_sortForApply herder sha256 txSet id
  obtain ⟨b, haccount⟩ := account_eq h.coherent id
  cases hrow : s.db.accounts[id]? with
  | none =>
    -- nothing is valid of an account that is not there
    rw [hrow] at haccount
    have hnil : sortedOf herder txSet.mTransactions id = [] := by
      cases hl : sortedOf herder txSet.mTransactions id with
      | nil => rfl
      | cons tx rest =>
        rw [hl] at hchain
        obtain ⟨a, -, ha, -⟩ := checkTx_of_isValid h.rowsValid hchain.1
        have hid : getSourceID tx = id :=
          (mem_sortedOf.mp (hl ▸ List.mem_cons_self : tx ∈ sortedOf herder _ id)).2
        rw [hid, haccount] at ha
        cases ha
    rw [hnil] at hseqs
    have hnone : seqNumsOf (opened closeTime s) id = none := by
      show Option.map _ s.db.accounts[id]? = none
      rw [hrow]
      rfl
    rw [hnone]
    refine iff_of_true (List.map_eq_nil_iff.mp hseqs) ?_
    have hempty : txsOf txSet.mTransactions id = [] := by
      have hperm : (sortedOf herder txSet.mTransactions id).Perm (txsOf txSet.mTransactions id) :=
        sortedOf_perm txSet.mTransactions id
      rw [hnil] at hperm
      exact hperm.nil_eq.symm
    rw [zeros, hempty]
    exact Nat.zero_le _
  | some row =>
    rw [hrow] at haccount
    have hsome : seqNumsOf (opened closeTime s) id = some row.entry.seqNum := by
      show Option.map _ s.db.accounts[id]? = some _
      rw [hrow]
      rfl
    rw [hsome, ← successive_iff h.rowsValid haccount hchain, ← hseqs]
    rfl

theorem accountsWellFormed_threeAccounts : AccountsWellFormed threeAccounts := by
  refine ⟨fun id row hrow => ?_, fun _ _ hmem => absurd hmem List.not_mem_nil⟩
  rw [row_threeAccounts hrow]
  have hbalance : (0 : ℤ) ≤ 1000 := by decide
  exact ⟨rfl, rfl, hbalance, List.Pairwise.nil⟩

/-- Three transactions of two accounts are charged. -/
theorem charged_iff_threeTxs :
    Charged (opened 7 threeAccounts) (sortForApply exampleHerder sizeHash
      ⟨0, [simpleTx 6 11 100, simpleTx 5 12 100, simpleTx 5 11 100], none⟩) :=
  (charged_iff exampleHerder sizeHash threeAccounts 7
    ⟨0, [simpleTx 6 11 100, simpleTx 5 12 100, simpleTx 5 11 100], none⟩
    accountsWellFormed_threeAccounts (by decide) (by decide +kernel)).mpr fun id => by
      have hzero : [simpleTx 6 11 100, simpleTx 5 12 100, simpleTx 5 11 100].countP
          (getSeqNum · = 0) = 0 := by
        decide
      exact ((List.filter_sublist.countP_le).trans hzero.le).trans (Nat.zero_le 1)

/-- The account 5 has had all sequence numbers but 0. -/
def lastSeqNum : LedgerState where
  db.accounts := Std.ExtTreeMap.empty.insert 5
    ⟨{ (simpleRow 5).entry with seqNum := 2 ^ 64 - 1 }, 1⟩
  mCurrentLedger := { maxTxSetSize := 3, ledgerSeq := 2 }

theorem accountsWellFormed_lastSeqNum : AccountsWellFormed lastSeqNum := by
  refine ⟨fun id row hrow => ?_, fun _ _ hmem => absurd hmem List.not_mem_nil⟩
  simp only [lastSeqNum, Std.ExtTreeMap.getElem?_insert, compare_eq_iff_eq] at hrow
  split_ifs at hrow with hid
  · subst hid
    obtain rfl := Option.some.inj hrow
    exact ⟨rfl, rfl, by decide, List.Pairwise.nil⟩
  · simp at hrow

/-- Two transactions with the sequence number 0. -/
def twoZeros : TxSetFrame := ⟨0, [simpleTx 5 0 100, simpleTx 5 0 200], none⟩

/-- The exception of a run, if it stops with one. -/
def exceptionOf {α : Type} (x : LedgerM α) (s : LedgerState) : Option String :=
  match x s with
  | .error (.exception what) _ => some what
  | _ => none

/-- Both are valid, and the second cannot be charged. -/
theorem not_charged_twoZeros :
    AccountsWellFormed lastSeqNum ∧ lastSeqNum.mCurrentLedger.ledgerSeq ≠ 0 ∧
      checkValid exampleHerder lastSeqNum twoZeros.mTransactions = .ok true ∧
      exceptionOf (LedgerManager.processFeesSeqNums (sortForApply exampleHerder sizeHash twoZeros))
        (opened 7 lastSeqNum) = some "Unexpected account state" ∧
      ¬ Charged (opened 7 lastSeqNum) (sortForApply exampleHerder sizeHash twoZeros) := by
  have hthrows : exceptionOf
      (LedgerManager.processFeesSeqNums (sortForApply exampleHerder sizeHash twoZeros))
      (opened 7 lastSeqNum) = some "Unexpected account state" := by
    decide +kernel
  have hvalid : checkValid exampleHerder lastSeqNum twoZeros.mTransactions = .ok true := by
    decide +kernel
  have hseq : lastSeqNum.mCurrentLedger.ledgerSeq ≠ 0 := by decide
  refine ⟨accountsWellFormed_lastSeqNum, hseq, hvalid, hthrows, fun h => ?_⟩
  obtain ⟨t, ht⟩ := h.returned
  rw [exceptionOf, ht] at hthrows
  cases hthrows

end SmartCore.Herder
