import Mathlib.Algebra.Order.BigOperators.Group.List
import Mathlib.Data.List.Count
import Mathlib.Data.List.Dedup
import Mathlib.Data.List.Lattice
import SmartCore.Herder.TxSetFrame

/-!
# Valid proposals

What `trimInvalid` leaves of an account is a chain: each transaction is valid after the one before
it. The chain is strictly ordered by sequence numbers, unless the sequence number of the account is
the last there is; then all transactions of the chain have the sequence number 0, and are valid in
any order.

A part of the set that has, with each transaction, all those of the account that come before it, is
valid too: the transactions are checked after the same ones, and the account has less to pay
(`checkValid_of_downClosed`). This is what the surge pricing filter keeps of a set that it can sort.
-/

namespace SmartCore.Herder

open SmartCore.Ledger SmartCore.Transactions

variable {herder : HerderImpl} {s : LedgerState}

/-! ## Chains -/

/-- Whether the transaction is valid after one with the sequence number `lastSeq`. -/
def isValid (herder : HerderImpl) (s : LedgerState) (tx : Tx) (lastSeq : ℕ) : Bool :=
  match checkTx herder s tx lastSeq with
  | .ok (some _) => true
  | _ => false

/-- The transactions that are not trimmed, one after the other. -/
def chain (herder : HerderImpl) (s : LedgerState) : ℕ → List Tx → List Tx
  | _, [] => []
  | lastSeq, tx :: txs =>
    if isValid herder s tx lastSeq then tx :: chain herder s (getSeqNum tx) txs
    else chain herder s lastSeq txs

/-- Each transaction is valid after the one before. -/
def ValidFrom (herder : HerderImpl) (s : LedgerState) : ℕ → List Tx → Prop
  | _, [] => True
  | lastSeq, tx :: txs =>
    isValid herder s tx lastSeq = true ∧ ValidFrom herder s (getSeqNum tx) txs

def totalFee (txs : List Tx) : ℕ := (txs.map getFee).sum

theorem checkTx_of_isValid (h : RowsValid s) {tx : Tx} {lastSeq : ℕ}
    (hvalid : isValid herder s tx lastSeq = true) :
    ∃ a, checkTx herder s tx lastSeq = .ok (some a) ∧ account s (getSourceID tx) = some a ∧
      getSeqNum tx = nextSeq a lastSeq := by
  rcases checkTx_cases herder h tx lastSeq with hnone | hsome
  · simp [isValid, hnone] at hvalid
  · exact hsome

theorem checkTx_of_not_isValid (h : RowsValid s) {tx : Tx} {lastSeq : ℕ}
    (hvalid : ¬ isValid herder s tx lastSeq = true) :
    checkTx herder s tx lastSeq = .ok none := by
  rcases checkTx_cases herder h tx lastSeq with hnone | ⟨a, hsome, -⟩
  · exact hnone
  · simp [isValid, hsome] at hvalid

theorem chain_sublist (lastSeq : ℕ) (txs : List Tx) : (chain herder s lastSeq txs).Sublist txs := by
  induction txs generalizing lastSeq with
  | nil => exact List.Sublist.refl _
  | cons tx txs ih =>
    unfold chain
    split_ifs
    · exact (ih _).cons_cons tx
    · exact (ih _).cons tx

theorem validFrom_chain (lastSeq : ℕ) (txs : List Tx) :
    ValidFrom herder s lastSeq (chain herder s lastSeq txs) := by
  induction txs generalizing lastSeq with
  | nil => exact trivial
  | cons tx txs ih =>
    unfold chain
    split_ifs with h
    · exact ⟨h, ih _⟩
    · exact ih _

theorem ValidFrom.of_start {lastSeq : ℕ} {txs txs' : List Tx} (h : ValidFrom herder s lastSeq txs)
    (hstart : txs' <+: txs) : ValidFrom herder s lastSeq txs' := by
  induction txs' generalizing lastSeq txs with
  | nil => exact trivial
  | cons tx txs' ih =>
    obtain ⟨rest, rfl⟩ := hstart
    exact ⟨h.1, ih h.2 (List.prefix_append _ _)⟩

/-- After a sequence number that is not the first, the sequence numbers only grow. -/
theorem ValidFrom.strict (hrows : RowsValid s) {lastSeq : ℕ} {txs : List Tx}
    (h : ValidFrom herder s lastSeq txs) (hlast : lastSeq ≠ 0)
    (hsorted : txs.Pairwise fun a b => getSeqNum a ≤ getSeqNum b)
    (hle : ∀ tx ∈ txs, lastSeq ≤ getSeqNum tx) :
    txs.Pairwise (fun a b => getSeqNum a < getSeqNum b) ∧ ∀ tx ∈ txs, lastSeq < getSeqNum tx := by
  induction txs generalizing lastSeq with
  | nil => exact ⟨.nil, nofun⟩
  | cons tx txs ih =>
    obtain ⟨htx, hsorted⟩ := List.pairwise_cons.mp hsorted
    obtain ⟨a, -, -, hseq⟩ := checkTx_of_isValid hrows h.1
    have hlt : lastSeq < getSeqNum tx := by
      have hle := hle tx List.mem_cons_self
      rw [nextSeq, if_neg hlast] at hseq
      omega
    obtain ⟨hpairwise, hall⟩ := ih h.2 (by omega) hsorted htx
    refine ⟨List.pairwise_cons.mpr ⟨hall, hpairwise⟩, ?_⟩
    intro tx' htx'
    rcases List.mem_cons.mp htx' with rfl | hmem
    · exact hlt
    · exact hlt.trans (hall tx' hmem)

/-- The sequence numbers of the account have wrapped around: every transaction gets 0. -/
theorem ValidFrom.all_zero (hrows : RowsValid s) {id : AccountID} {a : AccountFrame}
    (haccount : account s id = some a) (hnext : nextSeq a 0 = 0) {txs : List Tx}
    (h : ValidFrom herder s 0 txs) (hid : ∀ tx ∈ txs, getSourceID tx = id) :
    ∀ tx ∈ txs, getSeqNum tx = 0 ∧ isValid herder s tx 0 = true := by
  induction txs with
  | nil => exact nofun
  | cons tx txs ih =>
    obtain ⟨b, -, hb, hseq⟩ := checkTx_of_isValid hrows h.1
    rw [hid tx List.mem_cons_self, haccount, Option.some.injEq] at hb
    have hzero : getSeqNum tx = 0 := by rw [hseq, ← hb, hnext]
    have hrest : ValidFrom herder s 0 txs := by
      have := h.2
      rwa [hzero] at this
    intro tx' htx'
    rcases List.mem_cons.mp htx' with rfl | hmem
    · exact ⟨hzero, h.1⟩
    · exact ih hrest (fun x hx => hid x (List.mem_cons_of_mem _ hx)) tx' hmem

/-- The chain of an account is strictly ordered, or all its sequence numbers are 0. -/
theorem ValidFrom.cases (hrows : RowsValid s) {id : AccountID} {txs : List Tx}
    (h : ValidFrom herder s 0 txs) (hid : ∀ tx ∈ txs, getSourceID tx = id)
    (hsorted : txs.Pairwise fun a b => getSeqNum a ≤ getSeqNum b) :
    txs.Pairwise (fun a b => getSeqNum a < getSeqNum b) ∨
      ∀ tx ∈ txs, getSeqNum tx = 0 ∧ isValid herder s tx 0 = true := by
  cases txs with
  | nil => exact Or.inl .nil
  | cons tx txs =>
    obtain ⟨htx, hsorted⟩ := List.pairwise_cons.mp hsorted
    obtain ⟨a, -, haccount, hseq⟩ := checkTx_of_isValid hrows h.1
    rw [hid tx List.mem_cons_self] at haccount
    by_cases hzero : getSeqNum tx = 0
    · exact Or.inr (h.all_zero hrows haccount (hseq.symm.trans hzero) hid)
    · obtain ⟨hpairwise, hall⟩ := ValidFrom.strict hrows h.2 hzero hsorted htx
      exact Or.inl (List.pairwise_cons.mpr ⟨hall, hpairwise⟩)

/-! ## The loops -/

/-- A valid transaction is taken into account. -/
def addTx (s : LedgerState) (acc : AccountTxs) (tx : Tx) : AccountTxs :=
  ⟨account s (getSourceID tx), getSeqNum tx, acc.totFee + getFee tx⟩

/-- The transactions that are trimmed because they are not valid. -/
def rejected (herder : HerderImpl) (s : LedgerState) : ℕ → List Tx → List Tx
  | _, [] => []
  | lastSeq, tx :: txs =>
    if isValid herder s tx lastSeq then rejected herder s (getSeqNum tx) txs
    else tx :: rejected herder s lastSeq txs

theorem chain_rejected_perm (lastSeq : ℕ) (txs : List Tx) :
    (chain herder s lastSeq txs ++ rejected herder s lastSeq txs).Perm txs := by
  induction txs generalizing lastSeq with
  | nil => exact .refl _
  | cons tx txs ih =>
    unfold chain rejected
    split_ifs
    · exact (ih _).cons tx
    · exact List.perm_middle.trans ((ih _).cons tx)

theorem trimLoop_eq (h : RowsValid s) (txs : List Tx) (acc : AccountTxs) :
    trimLoop herder s txs acc =
      .ok ((chain herder s acc.lastSeq txs).foldl (addTx s) acc,
        rejected herder s acc.lastSeq txs) := by
  induction txs generalizing acc with
  | nil => rfl
  | cons tx txs ih =>
    unfold trimLoop chain rejected
    by_cases hvalid : isValid herder s tx acc.lastSeq = true
    · obtain ⟨a, hcheck, haccount, -⟩ := checkTx_of_isValid h hvalid
      have hadd : acc.add tx a = addTx s acc tx := by rw [AccountTxs.add, addTx, haccount]
      rw [if_pos hvalid, if_pos hvalid, List.foldl_cons, ← hadd]
      simp only [hcheck]
      exact ih (acc.add tx a)
    · rw [if_neg hvalid, if_neg hvalid]
      simp only [checkTx_of_not_isValid h hvalid, ih acc]
      rfl

theorem checkLoop_eq (h : RowsValid s) {txs : List Tx} {acc : AccountTxs}
    (hvalid : ValidFrom herder s acc.lastSeq txs) :
    checkLoop herder s txs acc = .ok ((txs.foldl (addTx s) acc).canPay s) := by
  induction txs generalizing acc with
  | nil => rfl
  | cons tx txs ih =>
    obtain ⟨a, hcheck, haccount, -⟩ := checkTx_of_isValid h hvalid.1
    have hadd : acc.add tx a = addTx s acc tx := by rw [AccountTxs.add, addTx, haccount]
    unfold checkLoop
    rw [List.foldl_cons, ← hadd]
    simp only [hcheck]
    exact ih hvalid.2

theorem foldl_addTx {id : AccountID} {txs : List Tx} (acc : AccountTxs)
    (hid : ∀ tx ∈ txs, getSourceID tx = id) :
    (txs.foldl (addTx s) acc).totFee = acc.totFee + totalFee txs ∧
      (txs.foldl (addTx s) acc).lastTx = if txs = [] then acc.lastTx else account s id := by
  induction txs generalizing acc with
  | nil => exact ⟨rfl, rfl⟩
  | cons tx txs ih =>
    obtain ⟨hfee, hlast⟩ := ih (addTx s acc tx) fun x hx => hid x (List.mem_cons_of_mem _ hx)
    rw [List.foldl_cons, hfee, hlast]
    constructor
    · simp only [addTx, totalFee, List.map_cons, List.sum_cons]
      omega
    · rw [if_neg (List.cons_ne_nil _ _), addTx, hid tx List.mem_cons_self, ite_self]

/-- An account that can pay for its transactions can pay for less. -/
theorem canPay_of_le {id : AccountID} {txs txs' : List Tx}
    (hid : ∀ tx ∈ txs, getSourceID tx = id) (hid' : ∀ tx ∈ txs', getSourceID tx = id)
    (hne : txs' ≠ [] → txs ≠ []) (hfee : totalFee txs' ≤ totalFee txs)
    (h : (txs.foldl (addTx s) {}).canPay s = true) :
    (txs'.foldl (addTx s) {}).canPay s = true := by
  obtain ⟨htot, hlast⟩ := foldl_addTx (s := s) {} hid
  obtain ⟨htot', hlast'⟩ := foldl_addTx (s := s) {} hid'
  have hstart : ({} : AccountTxs).totFee = 0 := rfl
  unfold AccountTxs.canPay at h ⊢
  rw [htot, hlast, hstart, zero_add] at h
  rw [htot', hlast', hstart, zero_add]
  by_cases hnil : txs' = []
  · rw [if_pos hnil]
    rfl
  · rw [if_neg (hne hnil)] at h
    rw [if_neg hnil]
    cases haccount : account s id with
    | none => rfl
    | some a =>
      rw [haccount] at h
      simp only [Option.all_some, Bool.not_eq_true', decide_eq_false_iff_not, not_lt] at h ⊢
      have hfee : (totalFee txs' : ℤ) ≤ totalFee txs := by exact_mod_cast hfee
      exact h.trans (sub_le_sub_left hfee _)

/-! ## What is left -/

/-- The transactions of an account by sequence number. -/
def sortedOf (herder : HerderImpl) (txs : List Tx) (id : AccountID) : List Tx :=
  herder.std.sort SeqSorter (txsOf txs id)

/-- What is left of an account. -/
def leftOf (herder : HerderImpl) (s : LedgerState) (txs : List Tx) (id : AccountID) : List Tx :=
  let c := chain herder s 0 (sortedOf herder txs id)
  if (c.foldl (addTx s) {}).canPay s then c else []

/-- What is trimmed of an account. -/
def trimmedOf (herder : HerderImpl) (s : LedgerState) (txs : List Tx) (id : AccountID) : List Tx :=
  let sorted := sortedOf herder txs id
  rejected herder s 0 sorted ++
    if ((chain herder s 0 sorted).foldl (addTx s) {}).canPay s then [] else sorted

theorem strictWeakOn_seqSorter (txs : List Tx) : StrictWeakOn SeqSorter txs :=
  strictWeakOn_key getSeqNum txs

theorem strictWeakOn_hashTxSorter (herder : HerderImpl) (txs : List Tx) :
    StrictWeakOn (HashTxSorter herder) txs :=
  strictWeakOn_key herder.getFullHash txs

theorem sortedOf_perm (txs : List Tx) (id : AccountID) :
    (sortedOf herder txs id).Perm (txsOf txs id) := herder.std.perm (strictWeakOn_seqSorter _)

theorem sortedOf_sorted (txs : List Tx) (id : AccountID) :
    (sortedOf herder txs id).Pairwise fun a b => getSeqNum a ≤ getSeqNum b := by
  refine (herder.std.sorted (strictWeakOn_seqSorter _)).imp fun h => ?_
  exact not_lt.mp (of_decide_eq_false h)

theorem mem_txsOf {txs : List Tx} {id : AccountID} {tx : Tx} :
    tx ∈ txsOf txs id ↔ tx ∈ txs ∧ getSourceID tx = id := by
  simp [txsOf]

theorem mem_sortedOf {txs : List Tx} {id : AccountID} {tx : Tx} :
    tx ∈ sortedOf herder txs id ↔ tx ∈ txs ∧ getSourceID tx = id :=
  (sortedOf_perm txs id).mem_iff.trans mem_txsOf

theorem leftOf_sublist (txs : List Tx) (id : AccountID) :
    (leftOf herder s txs id).Sublist (sortedOf herder txs id) := by
  unfold leftOf
  dsimp only
  split_ifs
  · exact chain_sublist _ _
  · exact List.nil_sublist _

theorem source_of_mem_leftOf {txs : List Tx} {id : AccountID} {tx : Tx}
    (h : tx ∈ leftOf herder s txs id) : getSourceID tx = id :=
  (mem_sortedOf.mp ((leftOf_sublist txs id).subset h)).2

theorem source_of_mem_trimmedOf {txs : List Tx} {id : AccountID} {tx : Tx}
    (h : tx ∈ trimmedOf herder s txs id) : getSourceID tx = id := by
  have hsub : trimmedOf herder s txs id ⊆ sortedOf herder txs id := by
    have hrejected : rejected herder s 0 (sortedOf herder txs id) ⊆ sortedOf herder txs id :=
      fun tx htx => (chain_rejected_perm 0 _).subset (List.mem_append_right _ htx)
    unfold trimmedOf
    refine List.append_subset.mpr ⟨hrejected, ?_⟩
    split_ifs
    · exact List.nil_subset _
    · exact List.Subset.refl _
  exact (mem_sortedOf.mp (hsub h)).2

/-- What is not trimmed is left. -/
theorem count_leftOf (txs : List Tx) (id : AccountID) (tx : Tx) :
    (txsOf txs id).count tx - (trimmedOf herder s txs id).count tx =
      (leftOf herder s txs id).count tx := by
  have hsorted : (sortedOf herder txs id).count tx = (txsOf txs id).count tx :=
    (sortedOf_perm txs id).count_eq tx
  have hcount : (chain herder s 0 (sortedOf herder txs id) ++
      rejected herder s 0 (sortedOf herder txs id)).count tx = (sortedOf herder txs id).count tx :=
    (chain_rejected_perm 0 _).count_eq tx
  rw [List.count_append] at hcount
  rw [← hsorted]
  unfold trimmedOf leftOf
  dsimp only
  split_ifs
  · rw [List.append_nil]
    omega
  · rw [List.count_append, List.count_nil]
    omega

theorem trimAccounts_eq (h : RowsValid s) (txs : List Tx) (ids : List AccountID) :
    trimAccounts herder s txs ids = .ok (ids.flatMap (trimmedOf herder s txs)) := by
  induction ids with
  | nil => rfl
  | cons id ids ih =>
    unfold trimAccounts trimAccount
    simp only [trimLoop_eq h, ih]
    rfl

/-- Only the account of a transaction can have it. -/
theorem count_flatMap_source {f : AccountID → List Tx} (hf : ∀ id, ∀ tx ∈ f id, getSourceID tx = id)
    {ids : List AccountID} (hids : ids.Nodup) (tx : Tx) :
    (ids.flatMap f).count tx =
      if getSourceID tx ∈ ids then (f (getSourceID tx)).count tx else 0 := by
  induction ids with
  | nil => rfl
  | cons id ids ih =>
    obtain ⟨hid, hids⟩ := List.nodup_cons.mp hids
    rw [List.flatMap_cons, List.count_append, ih hids]
    by_cases heq : getSourceID tx = id
    · rw [← heq] at hid ⊢
      simp [hid]
    · have hzero : (f id).count tx = 0 := List.count_eq_zero.mpr fun hmem => heq (hf id tx hmem)
      simp [hzero, heq]

theorem mem_accountIDs {txs : List Tx} {id : AccountID} :
    id ∈ accountIDs txs ↔ ∃ tx ∈ txs, getSourceID tx = id := by
  simp [accountIDs, List.mem_dedup]

theorem nodup_accountIDs (txs : List Tx) : (accountIDs txs).Nodup :=
  (List.perm_insertionSort _ _).nodup_iff.mpr (List.nodup_dedup _)

/-- The set without what is trimmed. -/
def validTxs (herder : HerderImpl) (s : LedgerState) (pending : List Tx) : List Tx :=
  let mTransactions := herder.std.sort (HashTxSorter herder) pending
  mTransactions.diff ((accountIDs mTransactions).flatMap (trimmedOf herder s mTransactions))

/-- `trimInvalid` returns. -/
theorem trimInvalid_eq (h : RowsValid s) (pending : List Tx) :
    ∃ trimmed, trimInvalid herder s pending = .ok (validTxs herder s pending, trimmed) := by
  unfold trimInvalid
  simp only [trimAccounts_eq h]
  exact ⟨_, rfl⟩

/-- **What is left of each account** is its chain. -/
theorem txsOf_validTxs_perm (pending : List Tx) (id : AccountID) :
    (txsOf (validTxs herder s pending) id).Perm
      (leftOf herder s (herder.std.sort (HashTxSorter herder) pending) id) := by
  set mTransactions := herder.std.sort (HashTxSorter herder) pending with hsort
  rw [List.perm_iff_count]
  intro tx
  by_cases hid : getSourceID tx = id
  · subst hid
    have hmem : (txsOf (validTxs herder s pending) (getSourceID tx)).count tx =
        (validTxs herder s pending).count tx := List.count_filter (by simp)
    have hall : (txsOf mTransactions (getSourceID tx)).count tx = mTransactions.count tx :=
      List.count_filter (by simp)
    rw [hmem, ← count_leftOf, hall, validTxs, ← hsort]
    rw [List.count_diff, count_flatMap_source (fun id tx => source_of_mem_trimmedOf)
      (nodup_accountIDs _)]
    split_ifs with hin
    · rfl
    · have hnone : mTransactions.count tx = 0 :=
        List.count_eq_zero.mpr fun hmem => hin (mem_accountIDs.mpr ⟨tx, hmem, rfl⟩)
      omega
  · have hleft : (leftOf herder s mTransactions id).count tx = 0 :=
      List.count_eq_zero.mpr fun hmem => hid (source_of_mem_leftOf hmem)
    rw [hleft]
    exact List.count_eq_zero.mpr fun hmem => hid (mem_txsOf.mp hmem).2

/-! ## Parts of what is left -/

/-- A part of the set has, with each transaction, all those of its account that come before. -/
def DownClosed (kept valid : List Tx) : Prop :=
  ∀ a ∈ valid, ∀ b ∈ kept, getSourceID a = getSourceID b → getSeqNum a < getSeqNum b → a ∈ kept

theorem sortedByHash_of_pairwise {lastHash : ℕ} {txs : List Tx}
    (hsorted : txs.Pairwise fun a b => herder.getFullHash a ≤ herder.getFullHash b)
    (hlast : ∀ tx ∈ txs, lastHash ≤ herder.getFullHash tx) :
    sortedByHash herder lastHash txs = true := by
  induction txs generalizing lastHash with
  | nil => rfl
  | cons tx txs ih =>
    obtain ⟨htx, hsorted⟩ := List.pairwise_cons.mp hsorted
    unfold sortedByHash
    rw [if_neg (not_lt.mpr (hlast tx List.mem_cons_self))]
    exact ih hsorted htx

theorem checkAccounts_eq {txs : List Tx} {ids : List AccountID}
    (h : ∀ id, checkLoop herder s (sortedOf herder txs id) {} = .ok true) :
    checkAccounts herder s txs ids = .ok true := by
  induction ids with
  | nil => rfl
  | cons id ids ih =>
    have hid : checkLoop herder s (herder.std.sort SeqSorter (txsOf txs id)) {} = .ok true := h id
    unfold checkAccounts
    rw [hid]
    exact ih

theorem totalFee_le {txs txs' : List Tx} (h : txs'.Subperm txs) : totalFee txs' ≤ totalFee txs := by
  obtain ⟨l, hperm, hsub⟩ := h
  calc totalFee txs' = totalFee l := ((hperm.map getFee).sum_eq).symm
    _ ≤ totalFee txs := (hsub.map getFee).sum_le_sum fun _ _ => Nat.zero_le _

theorem validFrom_zero {txs : List Tx}
    (h : ∀ tx ∈ txs, getSeqNum tx = 0 ∧ isValid herder s tx 0 = true) :
    ValidFrom herder s 0 txs := by
  induction txs with
  | nil => exact trivial
  | cons tx txs ih =>
    refine ⟨(h tx List.mem_cons_self).2, ?_⟩
    rw [(h tx List.mem_cons_self).1]
    exact ih fun x hx => h x (List.mem_cons_of_mem _ hx)

section Part

variable {pending kept : List Tx}

/-- What is kept of an account is part of what was left of it. -/
theorem sortedOf_subperm (hsub : kept.Sublist (validTxs herder s pending)) (id : AccountID) :
    (sortedOf herder kept id).Subperm
      (leftOf herder s (herder.std.sort (HashTxSorter herder) pending) id) := by
  have hkept : (txsOf kept id).Subperm (txsOf (validTxs herder s pending) id) :=
    (hsub.filter _).subperm
  exact ((sortedOf_perm kept id).subperm.trans hkept).trans (txsOf_validTxs_perm pending id).subperm

/-- **The transactions of an account that are kept** are valid one after the other. -/
theorem validFrom_sortedOf (h : RowsValid s) (hsub : kept.Sublist (validTxs herder s pending))
    (hdown : DownClosed kept (validTxs herder s pending)) (id : AccountID) :
    ValidFrom herder s 0 (sortedOf herder kept id) := by
  set mTransactions := herder.std.sort (HashTxSorter herder) pending
  have hsubperm := sortedOf_subperm hsub id
  have hleft : (leftOf herder s mTransactions id).Sublist (sortedOf herder mTransactions id) :=
    leftOf_sublist mTransactions id
  have hvalid : ValidFrom herder s 0 (leftOf herder s mTransactions id) := by
    unfold leftOf
    dsimp only
    split_ifs
    · exact validFrom_chain _ _
    · exact trivial
  have hsorted : (leftOf herder s mTransactions id).Pairwise fun a b => getSeqNum a ≤ getSeqNum b :=
    (sortedOf_sorted mTransactions id).sublist hleft
  rcases hvalid.cases h (fun tx => source_of_mem_leftOf) hsorted with hstrict | hzero
  · have hnodup : ((sortedOf herder kept id).map getSeqNum).Nodup := by
      have hleft : ((leftOf herder s mTransactions id).map getSeqNum).Nodup :=
        List.pairwise_map.mpr (hstrict.imp fun h => h.ne)
      obtain ⟨l, hperm, hl⟩ := hsubperm
      exact (hperm.map getSeqNum).nodup_iff.mp (hleft.sublist (hl.map getSeqNum))
    have hkept : (sortedOf herder kept id).Pairwise fun a b => getSeqNum a < getSeqNum b := by
      have hne := List.pairwise_map.mp hnodup
      exact ((sortedOf_sorted kept id).and hne).imp fun h => lt_of_le_of_ne h.1 h.2
    refine hvalid.of_start (prefix_of_downClosed hstrict hkept hsubperm.subset ?_)
    intro a ha b hb hlt
    obtain ⟨hbkept, hbid⟩ := mem_sortedOf.mp hb
    have ha' : a ∈ txsOf (validTxs herder s pending) id :=
      (txsOf_validTxs_perm pending id).mem_iff.mpr ha
    obtain ⟨havalid, haid⟩ := mem_txsOf.mp ha'
    exact mem_sortedOf.mpr ⟨hdown a havalid b hbkept (haid.trans hbid.symm) hlt, haid⟩
  · exact validFrom_zero fun tx htx => hzero tx (hsubperm.subset htx)

theorem canPay_sortedOf (hsub : kept.Sublist (validTxs herder s pending)) (id : AccountID) :
    ((sortedOf herder kept id).foldl (addTx s) {}).canPay s = true := by
  set mTransactions := herder.std.sort (HashTxSorter herder) pending
  have hsubperm := sortedOf_subperm hsub id
  refine canPay_of_le (fun tx => source_of_mem_leftOf) (fun tx htx => (mem_sortedOf.mp htx).2) ?_
    (totalFee_le hsubperm) ?_
  · intro hne hnil
    rw [hnil] at hsubperm
    exact hne (List.subperm_nil.mp hsubperm)
  · unfold leftOf
    dsimp only
    split_ifs with hpay
    · exact hpay
    · rfl

/-- **A part of what is left** is a valid set, if it is closed and not too large. -/
theorem checkValid_of_downClosed (h : RowsValid s) (hsub : kept.Sublist (validTxs herder s pending))
    (hdown : DownClosed kept (validTxs herder s pending))
    (hsize : kept.length ≤ s.mCurrentLedger.maxTxSetSize) :
    checkValid herder s kept = .ok true := by
  have hhash : kept.Pairwise fun a b => herder.getFullHash a ≤ herder.getFullHash b := by
    have hsorted := herder.std.sorted (strictWeakOn_hashTxSorter herder pending)
    have hvalid : (validTxs herder s pending).Sublist
        (herder.std.sort (HashTxSorter herder) pending) := List.diff_sublist _ _
    exact (hsorted.sublist (hsub.trans hvalid)).imp fun h => not_lt.mp (of_decide_eq_false h)
  unfold checkValid
  rw [if_neg (not_lt.mpr hsize), sortedByHash_of_pairwise hhash fun _ _ => Nat.zero_le _]
  refine checkAccounts_eq fun id => ?_
  rw [checkLoop_eq h (validFrom_sortedOf h hsub hdown id), canPay_sortedOf hsub id]

end Part

/-! ## Valid sets -/

theorem validFrom_of_checkLoop (h : RowsValid s) {txs : List Tx} {acc : AccountTxs}
    (hok : checkLoop herder s txs acc = .ok true) :
    ValidFrom herder s acc.lastSeq txs ∧ (txs.foldl (addTx s) acc).canPay s = true := by
  induction txs generalizing acc with
  | nil => exact ⟨trivial, Except.ok.inj hok⟩
  | cons tx txs ih =>
    unfold checkLoop at hok
    by_cases hvalid : isValid herder s tx acc.lastSeq = true
    · obtain ⟨a, hcheck, haccount, -⟩ := checkTx_of_isValid h hvalid
      have hadd : acc.add tx a = addTx s acc tx := by rw [AccountTxs.add, addTx, haccount]
      simp only [hcheck] at hok
      have hrest : ValidFrom herder s (acc.add tx a).lastSeq txs ∧
          (txs.foldl (addTx s) (acc.add tx a)).canPay s = true := ih hok
      rw [hadd] at hrest
      exact ⟨⟨hvalid, hrest.1⟩, hrest.2⟩
    · simp only [checkTx_of_not_isValid h hvalid] at hok
      cases hok

theorem checkLoop_of_checkAccounts {txs : List Tx} {ids : List AccountID}
    (hok : checkAccounts herder s txs ids = .ok true) :
    ∀ id ∈ ids, checkLoop herder s (sortedOf herder txs id) {} = .ok true := by
  induction ids with
  | nil => exact nofun
  | cons id ids ih =>
    unfold checkAccounts at hok
    have hid : checkLoop herder s (sortedOf herder txs id) {} = .ok true := by
      rcases hloop : checkLoop herder s (sortedOf herder txs id) {} with e | b
      · unfold sortedOf at hloop
        rw [hloop] at hok
        cases hok
      · cases b with
        | true => rfl
        | false =>
          unfold sortedOf at hloop
          rw [hloop] at hok
          cases hok
    have hrest : checkAccounts herder s txs ids = .ok true := by
      unfold sortedOf at hid
      rw [hid] at hok
      exact hok
    intro id' hmem
    rcases List.mem_cons.mp hmem with rfl | hmem
    · exact hid
    · exact ih hrest id' hmem

/-- What is checked of a set. -/
structure Accepted (herder : HerderImpl) (s : LedgerState) (txs : List Tx) : Prop where
  size : txs.length ≤ s.mCurrentLedger.maxTxSetSize
  sorted : sortedByHash herder 0 txs = true
  chains : ∀ id, ValidFrom herder s 0 (sortedOf herder txs id)
  pays : ∀ id, ((sortedOf herder txs id).foldl (addTx s) {}).canPay s = true

theorem accepted_of_checkValid (h : RowsValid s) {txs : List Tx}
    (hok : checkValid herder s txs = .ok true) : Accepted herder s txs := by
  unfold checkValid at hok
  split_ifs at hok with hsize hsorted
  · cases hok
  · cases hok
  · have hloops : ∀ id, checkLoop herder s (sortedOf herder txs id) {} = .ok true := by
      intro id
      by_cases hid : id ∈ accountIDs txs
      · exact checkLoop_of_checkAccounts hok id hid
      · have hnil : sortedOf herder txs id = [] := List.eq_nil_iff_forall_not_mem.mpr
          fun tx htx => hid (mem_accountIDs.mpr ⟨tx, mem_sortedOf.mp htx⟩)
        rw [hnil]
        rfl
    exact ⟨not_lt.mp hsize, by simpa using hsorted,
      fun id => (validFrom_of_checkLoop h (hloops id)).1,
      fun id => (validFrom_of_checkLoop h (hloops id)).2⟩

/-! ## The surge pricing filter -/

theorem surgePricingFilter_sublist (valid : List Tx) :
    (surgePricingFilter herder s valid).Sublist valid := by
  unfold surgePricingFilter
  dsimp only
  split_ifs
  · exact List.diff_sublist _ _
  · exact List.Sublist.refl _

/-- What the filter keeps of a set that it can sort: the first `maxTxSetSize`. -/
theorem surgePricingFilter_perm {valid : List Tx}
    (hsize : s.mCurrentLedger.maxTxSetSize < valid.length)
    (h : StrictWeakOn (SurgeSorter (accountFeeMap s.mCurrentLedger valid)) valid) :
    (surgePricingFilter herder s valid).Perm
      ((herder.std.sort (SurgeSorter (accountFeeMap s.mCurrentLedger valid)) valid).take
        s.mCurrentLedger.maxTxSetSize) := by
  set tempList := herder.std.sort (SurgeSorter (accountFeeMap s.mCurrentLedger valid)) valid
    with htemp
  have hperm : tempList.Perm valid := herder.std.perm h
  unfold surgePricingFilter
  rw [if_pos hsize, ← htemp, List.perm_iff_count]
  intro tx
  have hcount : (tempList.take s.mCurrentLedger.maxTxSetSize ++
      tempList.drop s.mCurrentLedger.maxTxSetSize).count tx = valid.count tx := by
    rw [List.take_append_drop]
    exact hperm.count_eq tx
  rw [List.count_append] at hcount
  rw [List.count_diff]
  omega

theorem surgePricingFilter_downClosed {valid : List Tx}
    (h : s.mCurrentLedger.maxTxSetSize < valid.length →
      StrictWeakOn (SurgeSorter (accountFeeMap s.mCurrentLedger valid)) valid) :
    DownClosed (surgePricingFilter herder s valid) valid := by
  intro a ha b hb hsource hseq
  by_cases hsize : s.mCurrentLedger.maxTxSetSize < valid.length
  · rw [(surgePricingFilter_perm hsize (h hsize)).mem_iff] at hb ⊢
    refine herder.std.mem_take (h hsize) ha hb ?_
    rw [SurgeSorter, if_pos hsource]
    exact decide_eq_true hseq
  · unfold surgePricingFilter
    rw [if_neg hsize]
    exact ha

theorem surgePricingFilter_length {valid : List Tx}
    (h : s.mCurrentLedger.maxTxSetSize < valid.length →
      StrictWeakOn (SurgeSorter (accountFeeMap s.mCurrentLedger valid)) valid) :
    (surgePricingFilter herder s valid).length ≤ s.mCurrentLedger.maxTxSetSize := by
  by_cases hsize : s.mCurrentLedger.maxTxSetSize < valid.length
  · rw [(surgePricingFilter_perm hsize (h hsize)).length_eq]
    exact List.length_take_le _ _
  · unfold surgePricingFilter
    rw [if_neg hsize]
    exact not_lt.mp hsize

/-! ## When the filter can sort -/

/-- The fee ratios that are numbers are in order. -/
def Double.toWithTop : Double → WithTop ℚ
  | .finite q => q
  | _ => ⊤

theorem Double.eq_iff {a b : Double} (ha : a ≠ .nan) (hb : b ≠ .nan) :
    a.eq b = true ↔ a.toWithTop = b.toWithTop := by
  cases a <;> cases b <;> simp_all [Double.eq, Double.toWithTop]

theorem Double.lt_iff {a b : Double} (ha : a ≠ .nan) (hb : b ≠ .nan) :
    a.lt b = true ↔ a.toWithTop < b.toWithTop := by
  cases a <;> cases b <;> simp_all [Double.lt, Double.toWithTop]

section Sorting

variable {m : AccountFeeMap} {valid : List Tx}

/-- What `SurgeSorter` compares, if every fee ratio is a number. -/
def surgeKey (m : AccountFeeMap) (tx : Tx) : (WithTop ℚ)ᵒᵈ ×ₗ AccountID ×ₗ ℕ :=
  toLex (OrderDual.toDual (m (getSourceID tx)).toWithTop, toLex (getSourceID tx, getSeqNum tx))

theorem surgeSorter_eq_key {a b : Tx} (ha : m (getSourceID a) ≠ .nan)
    (hb : m (getSourceID b) ≠ .nan) :
    SurgeSorter m a b = decide (surgeKey m a < surgeKey m b) := by
  rw [Bool.eq_iff_iff, decide_eq_true_eq, surgeKey, surgeKey, Prod.Lex.toLex_lt_toLex,
    OrderDual.toDual_lt_toDual, Prod.Lex.toLex_lt_toLex]
  unfold SurgeSorter
  by_cases hsource : getSourceID a = getSourceID b
  · simp [hsource]
  · rw [if_neg hsource]
    dsimp only
    by_cases heq : ((m (getSourceID a)).eq (m (getSourceID b))) = true
    · have htop := (Double.eq_iff ha hb).mp heq
      simp [heq, htop, hsource]
    · have htop := mt (Double.eq_iff ha hb).mpr heq
      simp [heq, htop, Double.lt_iff hb ha]

/-- A fee ratio that is not a number compares with no other account. -/
theorem surgeSorter_nan {a b : Tx} (hsource : getSourceID a ≠ getSourceID b)
    (h : m (getSourceID a) = .nan ∨ m (getSourceID b) = .nan) : SurgeSorter m a b = false := by
  unfold SurgeSorter
  rw [if_neg hsource]
  rcases h with h | h
  · rw [h]
    cases m (getSourceID b) <;> rfl
  · rw [h]
    cases m (getSourceID a) <;> rfl

/-- No two transactions are ordered: an account has one sequence number, and at most one has a fee
ratio that is a number. -/
structure Unordered (m : AccountFeeMap) (valid : List Tx) : Prop where
  seqNum : ∀ a ∈ valid, ∀ b ∈ valid, getSourceID a = getSourceID b → getSeqNum a = getSeqNum b
  number : ∀ a ∈ valid, ∀ b ∈ valid, m (getSourceID a) ≠ .nan → m (getSourceID b) ≠ .nan →
    getSourceID a = getSourceID b

theorem unordered_iff :
    Unordered m valid ↔ ∀ a ∈ valid, ∀ b ∈ valid, SurgeSorter m a b = false := by
  constructor
  · intro h a ha b hb
    by_cases hsource : getSourceID a = getSourceID b
    · rw [SurgeSorter, if_pos hsource, h.seqNum a ha b hb hsource]
      exact decide_eq_false (lt_irrefl _)
    · refine surgeSorter_nan hsource ?_
      by_contra hnot
      push Not at hnot
      exact hsource (h.number a ha b hb hnot.1 hnot.2)
  · intro h
    constructor
    · intro a ha b hb hsource
      have hab := h a ha b hb
      have hba := h b hb a ha
      rw [SurgeSorter, if_pos hsource] at hab
      rw [SurgeSorter, if_pos hsource.symm] at hba
      exact le_antisymm (not_lt.mp (of_decide_eq_false hba)) (not_lt.mp (of_decide_eq_false hab))
    · intro a ha b hb hna hnb
      have hab := h a ha b hb
      have hba := h b hb a ha
      rw [surgeSorter_eq_key hna hnb] at hab
      rw [surgeSorter_eq_key hnb hna] at hba
      have heq : surgeKey m a = surgeKey m b :=
        le_antisymm (not_lt.mp (of_decide_eq_false hba)) (not_lt.mp (of_decide_eq_false hab))
      exact congrArg (fun k => (ofLex (ofLex k).2).1) heq

/-- **When `SurgeSorter` is a strict weak order**: every fee ratio is a number, or there is one
account, or nothing is ordered. -/
theorem strictWeakOn_surgeSorter_iff :
    StrictWeakOn (SurgeSorter m) valid ↔
      (∀ tx ∈ valid, m (getSourceID tx) ≠ .nan) ∨
        (∀ a ∈ valid, ∀ b ∈ valid, getSourceID a = getSourceID b) ∨ Unordered m valid := by
  constructor
  · intro h
    by_cases hnan : ∀ tx ∈ valid, m (getSourceID tx) ≠ .nan
    · exact Or.inl hnan
    by_cases hone : ∀ a ∈ valid, ∀ b ∈ valid, getSourceID a = getSourceID b
    · exact Or.inr (Or.inl hone)
    -- there is an account without a number, and another account
    push Not at hnan hone
    obtain ⟨n, hn, hnan⟩ := hnan
    obtain ⟨o, ho, hother⟩ : ∃ o ∈ valid, getSourceID o ≠ getSourceID n := by
      obtain ⟨a, ha, b, hb, hne⟩ := hone
      by_cases haccount : getSourceID a = getSourceID n
      · exact ⟨b, hb, fun hb => hne (haccount.trans hb.symm)⟩
      · exact ⟨a, ha, haccount⟩
    have hleft : ∀ a b : Tx, getSourceID a = getSourceID n → getSourceID b ≠ getSourceID n →
        SurgeSorter m a b = false ∧ SurgeSorter m b a = false := by
      intro a b ha hb
      have hne : getSourceID a ≠ getSourceID b := fun heq => hb (heq.symm.trans ha)
      have hnan : m (getSourceID a) = .nan := by rw [ha, hnan]
      exact ⟨surgeSorter_nan hne (Or.inl hnan), surgeSorter_nan hne.symm (Or.inr hnan)⟩
    refine Or.inr (Or.inr (unordered_iff.mpr fun a ha b hb => ?_))
    by_cases haccount : getSourceID a = getSourceID n
    · by_cases hbccount : getSourceID b = getSourceID n
      · -- both are incomparable to a transaction of the other account
        obtain ⟨h₁, h₂⟩ := hleft a o haccount hother
        obtain ⟨h₃, h₄⟩ := hleft b o hbccount hother
        exact h.incomp a ha o ho b hb h₁ h₂ h₄ h₃
      · exact (hleft a b haccount hbccount).1
    · by_cases hbccount : getSourceID b = getSourceID n
      · exact (hleft b a hbccount haccount).2
      · obtain ⟨h₁, h₂⟩ := hleft n a rfl haccount
        obtain ⟨h₃, h₄⟩ := hleft n b rfl hbccount
        exact h.incomp a ha n hn b hb h₂ h₁ h₃ h₄
  · intro h
    rcases h with hnumber | hone | hunordered
    · refine (strictWeakOn_key (surgeKey m) valid).congr fun a ha b hb => ?_
      exact surgeSorter_eq_key (hnumber a ha) (hnumber b hb)
    · refine (strictWeakOn_seqSorter valid).congr fun a ha b hb => ?_
      rw [SurgeSorter, if_pos (hone a ha b hb)]
      rfl
    · have hfalse := unordered_iff.mp hunordered
      refine ⟨fun a ha => hfalse a ha a ha, fun a ha b hb c hc hab => ?_, fun a ha _ _ c hc _ _ _ _ =>
        hfalse a ha c hc⟩
      rw [hfalse a ha b hb] at hab
      cases hab

end Sorting

/-! ## Who pays -/

section Paying

variable {header : LedgerHeader} {valid : List Tx}

/-- The first transaction of the account, by hash, has a fee. -/
def Pays (valid : List Tx) (id : AccountID) : Prop :=
  (valid.find? (getSourceID · = id)).any (getFee · ≠ 0) = true

instance (valid : List Tx) (id : AccountID) : Decidable (Pays valid id) :=
  inferInstanceAs (Decidable (_ = _))

theorem getFeeRatio_of_baseFee (h : header.baseFee ≠ 0) (tx : Tx) :
    getFeeRatio header tx ≠ .nan := by
  have hmin : getMinFee header tx ≠ 0 := by
    unfold getMinFee
    dsimp only
    split_ifs with hcount
    · simpa using h
    · exact Nat.mul_ne_zero h hcount
  rw [getFeeRatio, Double.div, if_neg hmin]
  exact nofun

theorem getFeeRatio_of_zero (h : header.baseFee = 0) (tx : Tx) :
    getFeeRatio header tx = if getFee tx = 0 then .nan else .infinity := by
  have hmin : getMinFee header tx = 0 := by rw [getMinFee, h, zero_mul]
  rw [getFeeRatio, Double.div, if_pos hmin]

theorem accountFeeMap_of_baseFee (h : header.baseFee ≠ 0) (txs : List Tx) (id : AccountID) :
    accountFeeMap header txs id ≠ .nan := by
  have hfold : ∀ m : AccountFeeMap, m id ≠ .nan → txs.foldl (addFeeRatio header) m id ≠ .nan := by
    induction txs with
    | nil => exact fun m hm => hm
    | cons tx txs ih =>
      intro m hm
      refine ih _ ?_
      have hupdate : Function.update m (getSourceID tx) (getFeeRatio header tx) id ≠ .nan := by
        by_cases hid : id = getSourceID tx
        · rw [hid, Function.update_self]
          exact getFeeRatio_of_baseFee h tx
        · rwa [Function.update_of_ne hid]
      unfold addFeeRatio
      split_ifs
      · exact hupdate
      · exact hupdate
      · exact hm
  exact hfold _ nofun

/-- With a base fee of zero the first fee ratio of an account stays. -/
theorem foldl_addFeeRatio_of_zero (h : header.baseFee = 0) (id : AccountID) (txs : List Tx)
    (m : AccountFeeMap) (hm : m id = .finite 0 ∨ m id = .nan ∨ m id = .infinity) :
    txs.foldl (addFeeRatio header) m id =
      if m id = .finite 0 then
        (txs.find? (getSourceID · = id)).elim (.finite 0) (getFeeRatio header)
      else m id := by
  induction txs generalizing m with
  | nil =>
    show m id = if m id = .finite 0 then .finite 0 else m id
    split_ifs with hzero
    · exact hzero
    · rfl
  | cons tx txs ih =>
    rw [List.foldl_cons]
    have hratio : getFeeRatio header tx = .nan ∨ getFeeRatio header tx = .infinity := by
      rw [getFeeRatio_of_zero h]
      split_ifs
      · exact Or.inl rfl
      · exact Or.inr rfl
    by_cases hid : getSourceID tx = id
    · have hfind : (tx :: txs).find? (getSourceID · = id) = some tx := by simp [hid]
      rw [hfind]
      rcases hm with hm | hm | hm
      · have hstep : addFeeRatio header m tx id = getFeeRatio header tx := by
          simp [addFeeRatio, hid, hm, Double.eq]
        rw [ih _ (by rw [hstep]; exact Or.inr hratio), hstep, if_pos hm]
        rcases hratio with hr | hr <;> simp [hr]
      · have hstep : addFeeRatio header m tx id = m id := by
          rcases hratio with hr | hr <;> simp [addFeeRatio, hid, hm, hr, Double.eq, Double.lt]
        rw [ih _ (by rw [hstep]; exact Or.inr (Or.inl hm)), hstep]
        simp [hm]
      · have hstep : addFeeRatio header m tx id = m id := by
          rcases hratio with hr | hr <;> simp [addFeeRatio, hid, hm, hr, Double.eq, Double.lt]
        rw [ih _ (by rw [hstep]; exact Or.inr (Or.inr hm)), hstep]
        simp [hm]
    · have hstep : addFeeRatio header m tx id = m id := by
        have hne : id ≠ getSourceID tx := fun heq => hid heq.symm
        unfold addFeeRatio
        split_ifs <;> simp [Function.update_of_ne hne]
      have hfind : (tx :: txs).find? (getSourceID · = id) =
          txs.find? (getSourceID · = id) := by simp [hid]
      rw [ih _ (by rwa [hstep]), hstep, hfind]

/-- The fee ratio of an account is not a number if there is no base fee and it pays nothing. -/
theorem accountFeeMap_nan_iff {id : AccountID} (hid : ∃ tx ∈ valid, getSourceID tx = id) :
    accountFeeMap header valid id = .nan ↔ header.baseFee = 0 ∧ ¬ Pays valid id := by
  by_cases hbase : header.baseFee = 0
  · have hsome : (valid.find? (getSourceID · = id)).isSome := by
      obtain ⟨tx, htx, hsource⟩ := hid
      exact List.find?_isSome.mpr ⟨tx, htx, by simpa using hsource⟩
    obtain ⟨first, hfirst⟩ := Option.isSome_iff_exists.mp hsome
    have hmap : accountFeeMap header valid id = getFeeRatio header first := by
      rw [accountFeeMap, foldl_addFeeRatio_of_zero hbase id valid _ (Or.inl rfl), if_pos rfl, hfirst]
      rfl
    have hpays : Pays valid id ↔ getFee first ≠ 0 := by
      simp [Pays, hfirst]
    rw [hmap, getFeeRatio_of_zero hbase, hpays, not_not]
    by_cases hfee : getFee first = 0
    · simp [hbase, hfee]
    · simp [hfee]
  · constructor
    · intro hnan
      exact absurd hnan (accountFeeMap_of_baseFee hbase valid id)
    · intro h
      exact absurd h.1 hbase

/-- The transactions can be sorted: there is a base fee, or every account pays, or there is one
account, or every account has one sequence number and at most one account pays. -/
def Sortable (header : LedgerHeader) (valid : List Tx) : Prop :=
  header.baseFee ≠ 0 ∨ (∀ tx ∈ valid, Pays valid (getSourceID tx)) ∨
    (∀ a ∈ valid, ∀ b ∈ valid, getSourceID a = getSourceID b) ∨
    ((∀ a ∈ valid, ∀ b ∈ valid, getSourceID a = getSourceID b → getSeqNum a = getSeqNum b) ∧
      ∀ a ∈ valid, ∀ b ∈ valid, Pays valid (getSourceID a) → Pays valid (getSourceID b) →
        getSourceID a = getSourceID b)

instance (header : LedgerHeader) (valid : List Tx) : Decidable (Sortable header valid) :=
  inferInstanceAs (Decidable (_ ∨ _ ∨ _ ∨ _ ∧ _))

theorem strictWeakOn_iff_sortable :
    StrictWeakOn (SurgeSorter (accountFeeMap header valid)) valid ↔ Sortable header valid := by
  have hnan : ∀ tx ∈ valid, accountFeeMap header valid (getSourceID tx) ≠ .nan ↔
      header.baseFee ≠ 0 ∨ Pays valid (getSourceID tx) := by
    intro tx htx
    rw [Ne, accountFeeMap_nan_iff ⟨tx, htx, rfl⟩, not_and_or, not_not]
  rw [strictWeakOn_surgeSorter_iff, Sortable]
  by_cases hbase : header.baseFee = 0
  · have hpays : ∀ tx ∈ valid, accountFeeMap header valid (getSourceID tx) ≠ .nan ↔
        Pays valid (getSourceID tx) := by
      intro tx htx
      rw [hnan tx htx]
      simp [hbase]
    have hnumber : Unordered (accountFeeMap header valid) valid ↔
        (∀ a ∈ valid, ∀ b ∈ valid, getSourceID a = getSourceID b → getSeqNum a = getSeqNum b) ∧
        ∀ a ∈ valid, ∀ b ∈ valid, Pays valid (getSourceID a) → Pays valid (getSourceID b) →
          getSourceID a = getSourceID b := by
      constructor
      · intro h
        refine ⟨h.seqNum, fun a ha b hb hpa hpb => ?_⟩
        exact h.number a ha b hb ((hpays a ha).mpr hpa) ((hpays b hb).mpr hpb)
      · intro h
        refine ⟨h.1, fun a ha b hb hna hnb => ?_⟩
        exact h.2 a ha b hb ((hpays a ha).mp hna) ((hpays b hb).mp hnb)
    rw [hnumber, forall₂_congr hpays]
    simp [hbase]
  · have hall : ∀ tx ∈ valid, accountFeeMap header valid (getSourceID tx) ≠ .nan := fun tx htx =>
      (hnan tx htx).mpr (Or.inl hbase)
    exact ⟨fun _ => Or.inl hbase, fun _ => Or.inl hall⟩

end Paying

/-! ## Proposals -/

/-- What is asked of a proposal, for these pending transactions: `SurgeSorter` is a strict weak order
if there are too many, the set is proposed without an exception, it is not too large, and its
transactions of each account are the first of the valid ones. -/
structure Proposes (herder : HerderImpl) (s : LedgerState) (pending : List Tx) : Prop where
  order : s.mCurrentLedger.maxTxSetSize < (validTxs herder s pending).length →
    StrictWeakOn (SurgeSorter (accountFeeMap s.mCurrentLedger (validTxs herder s pending)))
      (validTxs herder s pending)
  proposal : ∃ proposedSet, triggerNextLedger herder s pending = .ok proposedSet ∧
    checkValid herder s proposedSet = .ok true ∧
    proposedSet.length ≤ s.mCurrentLedger.maxTxSetSize ∧
    proposedSet.Sublist (validTxs herder s pending) ∧
    DownClosed proposedSet (validTxs herder s pending)

theorem triggerNextLedger_eq (h : RowsValid s) (pending : List Tx) :
    triggerNextLedger herder s pending =
      checkValid herder s (surgePricingFilter herder s (validTxs herder s pending)) >>=
        fun valid => if valid then return surgePricingFilter herder s (validTxs herder s pending)
          else throw (.exception "wanting to emit an invalid txSet") := by
  obtain ⟨trimmed, htrim⟩ := trimInvalid_eq h pending
  unfold triggerNextLedger
  rw [htrim]
  rfl

/-- **Proposals.** The set is as it should be exactly if the valid transactions are not too many or
can be sorted. -/
theorem proposes_iff (herder : HerderImpl) (s : LedgerState) (pending : List Tx)
    (h : RowsValid s) :
    Proposes herder s pending ↔
      (validTxs herder s pending).length ≤ s.mCurrentLedger.maxTxSetSize ∨
        Sortable s.mCurrentLedger (validTxs herder s pending) := by
  constructor
  · intro hproposes
    by_cases hsize : s.mCurrentLedger.maxTxSetSize < (validTxs herder s pending).length
    · exact Or.inr (strictWeakOn_iff_sortable.mp (hproposes.order hsize))
    · exact Or.inl (not_lt.mp hsize)
  · intro hsortable
    have horder : s.mCurrentLedger.maxTxSetSize < (validTxs herder s pending).length →
        StrictWeakOn (SurgeSorter (accountFeeMap s.mCurrentLedger (validTxs herder s pending)))
          (validTxs herder s pending) := by
      intro hsize
      exact strictWeakOn_iff_sortable.mpr (hsortable.resolve_left (not_le.mpr hsize))
    set proposedSet := surgePricingFilter herder s (validTxs herder s pending)
    have hsub : proposedSet.Sublist (validTxs herder s pending) := surgePricingFilter_sublist _
    have hdown : DownClosed proposedSet (validTxs herder s pending) :=
      surgePricingFilter_downClosed horder
    have hlength : proposedSet.length ≤ s.mCurrentLedger.maxTxSetSize :=
      surgePricingFilter_length horder
    have hvalid := checkValid_of_downClosed h hsub hdown hlength
    refine ⟨horder, proposedSet, ?_, hvalid, hlength, hsub, hdown⟩
    rw [triggerNextLedger_eq h, hvalid]
    rfl

/-- An account that signs for itself. -/
def simpleRow (id : AccountID) : Row AccountEntry :=
  ⟨{ (AccountFrame.ofID id).mAccountEntry with seqNum := 10, balance := 1000 }, 1⟩

/-- Three accounts in a ledger that takes three transactions. -/
def threeAccounts : LedgerState where
  db :=
    { accounts :=
        ((Std.ExtTreeMap.empty.insert 5 (simpleRow 5)).insert 6 (simpleRow 6)).insert 7 (simpleRow 7) }
  mCurrentLedger := { maxTxSetSize := 3, ledgerSeq := 2 }

theorem row_threeAccounts {id : AccountID} {row : Row AccountEntry}
    (hrow : threeAccounts.db.accounts[id]? = some row) : row = simpleRow id := by
  simp only [threeAccounts, Std.ExtTreeMap.getElem?_insert, compare_eq_iff_eq] at hrow
  split_ifs at hrow with h7 h6 h5
  · rw [← h7]
    exact (Option.some.inj hrow).symm
  · rw [← h6]
    exact (Option.some.inj hrow).symm
  · rw [← h5]
    exact (Option.some.inj hrow).symm
  · simp at hrow

theorem rowsValid_threeAccounts : RowsValid threeAccounts := by
  intro id f h
  unfold Database.selectAccount at h
  cases hid : threeAccounts.db.accounts[id]? with
  | none =>
    rw [hid] at h
    cases h
  | some row =>
    rw [hid, row_threeAccounts hid] at h
    rw [← Option.some.inj h]
    rfl

/-- A transaction of one operation, signed by its source. -/
def simpleTx (source seqNum fee : ℕ) : Tx :=
  ⟨{ sourceAccount := source, fee, seqNum, operations := [⟨none, .INFLATION⟩] },
    [⟨source, source⟩], [.opFEE_NONE]⟩

/-- The transactions of the accounts 6 and 7 come first and third by hash. -/
def exampleHerder : HerderImpl where
  app := LedgerManager.exampleBank
  getFullHash tx :=
    if getSourceID tx = 6 then 1 else if getSourceID tx = 7 then 3
    else if getSeqNum tx = 12 then 2 else 4
  std := insertionSort

/-- Four transactions of three accounts. -/
def fourTxs (fee : ℕ) : List Tx :=
  [simpleTx 5 11 fee, simpleTx 5 12 fee, simpleTx 6 11 fee, simpleTx 7 11 fee]

/-- If they all pay, the last account is left out. -/
theorem proposes_fourTxs :
    RowsValid threeAccounts ∧ Proposes exampleHerder threeAccounts (fourTxs 100) ∧
      triggerNextLedger exampleHerder threeAccounts (fourTxs 100) =
        .ok [simpleTx 6 11 100, simpleTx 5 12 100, simpleTx 5 11 100] := by
  refine ⟨rowsValid_threeAccounts, ?_, by decide +kernel⟩
  exact (proposes_iff _ _ _ rowsValid_threeAccounts).mpr (by decide +kernel)

/-- If none of them pays, the first transaction of the account 5 is left out and its second is kept.
The set is not valid, and the exception is thrown. -/
theorem not_proposes_fourTxs :
    triggerNextLedger exampleHerder threeAccounts (fourTxs 0) =
        .error (.exception "wanting to emit an invalid txSet") ∧
      ¬ StrictWeakOn (SurgeSorter (accountFeeMap threeAccounts.mCurrentLedger
        (validTxs exampleHerder threeAccounts (fourTxs 0))))
        (validTxs exampleHerder threeAccounts (fourTxs 0)) ∧
      ¬ Proposes exampleHerder threeAccounts (fourTxs 0) := by
  have hthrows : triggerNextLedger exampleHerder threeAccounts (fourTxs 0) =
      .error (.exception "wanting to emit an invalid txSet") := by
    decide +kernel
  refine ⟨hthrows, ?_, fun h => ?_⟩
  · rw [strictWeakOn_iff_sortable]
    decide +kernel
  · obtain ⟨proposedSet, hok, -⟩ := h.proposal
    rw [hthrows] at hok
    cases hok

end SmartCore.Herder
