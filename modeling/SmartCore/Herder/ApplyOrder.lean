import Mathlib.Data.Nat.Bitwise
import SmartCore.Herder.Proposal

/-!
# The order in which transactions are applied

`sortForApply` sorts the transactions of a set by sequence number and deals them out to batches: the
`i`th transaction of every account goes to batch `i`. Each batch is then sorted by hash, xored with
the hash of the set so that nobody can predict the order.

What the batches hold depends only on the transactions of each account by sequence number
(`mem_batch`), and not on how `std::sort` leaves those of different accounts. So all nodes apply the
same set in the same order (`sortForApply_canonical`).

A hash is the number that its bytes are the digits of. Then byte by byte, comparing and xoring are
those of numbers.
-/

namespace SmartCore.Herder

open SmartCore.Ledger SmartCore.Transactions

variable (herder : HerderImpl)

def lessThanXored (l r x : ℕ) : Bool := x ^^^ l < x ^^^ r

def ApplyTxSorter (mSetHash : ℕ) (tx1 tx2 : Tx) : Bool :=
  lessThanXored (herder.getFullHash tx1) (herder.getFullHash tx2) mSetHash

/-! ## Transaction sets with their hash -/

/-- A transaction set. `mHash` is there if `mHashIsValid`. -/
structure TxSetFrame where
  mPreviousLedgerHash : ℕ
  mTransactions : List Tx := []
  mHash : Option ℕ := none

namespace TxSetFrame

-- the hash of the previous ledger's hash and the envelopes
variable (sha256 : ℕ → List Tx → ℕ)

def sortForHash (txSet : TxSetFrame) : TxSetFrame :=
  { txSet with
    mTransactions := herder.std.sort (HashTxSorter herder) txSet.mTransactions
    mHash := none }

/-- The hash, and the set with it. -/
def getContentsHash (txSet : TxSetFrame) : ℕ × TxSetFrame :=
  match txSet.mHash with
  | some mHash => (mHash, txSet)
  | none =>
    let txSet := sortForHash herder txSet
    let mHash := sha256 txSet.mPreviousLedgerHash txSet.mTransactions
    (mHash, { txSet with mHash := some mHash })

/-- The batches, and how many transactions of each account there are in them. -/
abbrev Batches := List (List Tx) × (AccountID → ℕ)

/-- Puts a transaction into the next batch of its account. -/
def addToBatches (x : Batches) (tx : Tx) : Batches :=
  let (txBatches, accountTxCountMap) := x
  let v := accountTxCountMap (getSourceID tx)
  -- `txBatches.resize(v + 4)`
  let txBatches :=
    if txBatches.length ≤ v then txBatches ++ List.replicate (v + 4 - txBatches.length) []
    else txBatches
  (txBatches.modify v (· ++ [tx]),
    Function.update accountTxCountMap (getSourceID tx) (v + 1))

def txBatches (retList : List Tx) : List (List Tx) :=
  (retList.foldl addToBatches (List.replicate 4 [], fun _ => 0)).1

def sortForApply (txSet : TxSetFrame) : List Tx :=
  let retList := herder.std.sort SeqSorter txSet.mTransactions
  (txBatches retList).flatMap fun batch =>
    herder.std.sort (ApplyTxSorter herder (getContentsHash herder sha256 txSet).1) batch

end TxSetFrame

open TxSetFrame

/-! ## The batches -/

/-- Each transaction with the number of those of its account before it. -/
def ranks : (AccountID → ℕ) → List Tx → List (Tx × ℕ)
  | _, [] => []
  | count, tx :: txs =>
    (tx, count (getSourceID tx)) ::
      ranks (Function.update count (getSourceID tx) (count (getSourceID tx) + 1)) txs

/-- Batch `i`. -/
def batch (retList : List Tx) (i : ℕ) : List Tx :=
  ((ranks (fun _ => 0) retList).filter fun x => x.2 = i).map Prod.fst

section Batches

variable {txs : List Tx}

theorem addToBatches_getD (x : Batches) (tx : Tx) (i : ℕ) :
    (addToBatches x tx).1[i]?.getD [] =
      x.1[i]?.getD [] ++ if x.2 (getSourceID tx) = i then [tx] else [] := by
  obtain ⟨txBatches, count⟩ := x
  simp only [addToBatches]
  set v := count (getSourceID tx)
  set resized := if txBatches.length ≤ v then
    txBatches ++ List.replicate (v + 4 - txBatches.length) [] else txBatches with hresized
  -- resizing only adds empty batches
  have hlen : v < resized.length := by
    rw [hresized]
    split_ifs with h
    · rw [List.length_append, List.length_replicate]
      omega
    · omega
  have hget : resized[i]?.getD [] = txBatches[i]?.getD [] := by
    rw [hresized]
    split_ifs with h
    · rcases Nat.lt_or_ge i txBatches.length with hi | hi
      · rw [List.getElem?_append_left hi]
      · rw [List.getElem?_append_right hi, List.getElem?_replicate,
          List.getElem?_eq_none hi]
        split_ifs <;> rfl
    · rfl
  rw [List.getElem?_modify, ← hget]
  split_ifs with h
  · subst h
    rw [List.getElem?_eq_getElem hlen]
    rfl
  · rw [List.append_nil]
    simp

theorem foldl_addToBatches_getD (x : Batches) (i : ℕ) :
    (txs.foldl addToBatches x).1[i]?.getD [] =
      x.1[i]?.getD [] ++ ((ranks x.2 txs).filter fun y => y.2 = i).map Prod.fst := by
  induction txs generalizing x with
  | nil => simp [ranks]
  | cons tx txs ih =>
    have hcount : (addToBatches x tx).2 =
        Function.update x.2 (getSourceID tx) (x.2 (getSourceID tx) + 1) := rfl
    rw [List.foldl_cons, ih, addToBatches_getD, hcount, ranks, List.filter_cons]
    split_ifs with h h' h' <;> simp_all

theorem txBatches_getD (i : ℕ) : (txBatches txs)[i]?.getD [] = batch txs i := by
  have hnil : (List.replicate 4 ([] : List Tx))[i]?.getD [] = [] := by
    rw [List.getElem?_replicate]
    split_ifs <;> rfl
  unfold txBatches
  rw [foldl_addToBatches_getD, hnil]
  rfl

/-- A list by its elements, with as many more as one likes that give nothing. -/
theorem flatMap_eq_range {α β : Type} (l : List (List α)) {f : List α → List β} (hf : f [] = [])
    {n : ℕ} (hn : l.length ≤ n) :
    l.flatMap f = (List.range n).flatMap fun i => f (l[i]?.getD []) := by
  induction l generalizing n with
  | nil => simp [hf]
  | cons a l ih =>
    cases n with
    | zero => simp at hn
    | succ n =>
      rw [List.range_succ_eq_map, List.flatMap_cons, List.flatMap_cons, List.flatMap_map,
        ih (by simpa using hn)]
      rfl

/-- The transactions of an account in batch `i`: its `i`th one. -/
theorem txsOf_ranks (count : AccountID → ℕ) (i : ℕ) (id : AccountID) :
    txsOf (((ranks count txs).filter fun x => x.2 = i).map Prod.fst) id =
      if count id ≤ i then (txsOf txs id)[i - count id]?.toList else [] := by
  induction txs generalizing count with
  | nil => simp [ranks, txsOf]
  | cons tx txs ih =>
    have hcons : ∀ l : List Tx, txsOf (tx :: l) id =
        if getSourceID tx = id then tx :: txsOf l id else txsOf l id := by
      intro l
      simp [txsOf, List.filter_cons]
    rw [ranks, List.filter_cons]
    by_cases hid : getSourceID tx = id
    · have hupdate : Function.update count (getSourceID tx) (count (getSourceID tx) + 1) id =
          count id + 1 := by rw [hid, Function.update_self]
      rw [hcons txs, if_pos hid]
      rcases Nat.lt_trichotomy (count id) i with hlt | heq | hgt
      · rw [if_neg (by simp [hid]; omega), ih, hupdate, if_pos (by omega), if_pos (by omega)]
        obtain ⟨k, hk⟩ : ∃ k, i - count id = k + 1 := ⟨i - count id - 1, by omega⟩
        rw [hk, List.getElem?_cons_succ]
        congr 2
        omega
      · rw [if_pos (by simp [hid, heq]), List.map_cons, hcons, if_pos hid, ih, hupdate,
          if_neg (by omega), if_pos (by omega), heq, Nat.sub_self]
        rfl
      · rw [if_neg (by simp [hid]; omega), ih, hupdate, if_neg (by omega), if_neg (by omega)]
    · have hupdate : Function.update count (getSourceID tx) (count (getSourceID tx) + 1) id =
          count id := Function.update_of_ne (fun h => hid h.symm) _ _
      rw [hcons txs, if_neg hid, ← hupdate, ← ih]
      split_ifs with h
      · rw [List.map_cons, hcons, if_neg hid]
      · rfl

theorem txsOf_batch (i : ℕ) (id : AccountID) :
    txsOf (batch txs i) id = (txsOf txs id)[i]?.toList := by
  unfold batch
  rw [txsOf_ranks, if_pos (Nat.zero_le i), Nat.sub_zero]

/-- **What a batch holds**: the `i`th transaction of each account. -/
theorem mem_batch {i : ℕ} {tx : Tx} :
    tx ∈ batch txs i ↔ (txsOf txs (getSourceID tx))[i]? = some tx := by
  have hmem : tx ∈ batch txs i ↔ tx ∈ txsOf (batch txs i) (getSourceID tx) := by
    rw [mem_txsOf]
    simp
  rw [hmem, txsOf_batch, Option.mem_toList]

end Batches

/-! ## Sorting a batch -/

section Sorted

variable {herder}

/-- The order by hash is that of the numbers that the hashes are xored to. -/
theorem strictWeakOn_applyTxSorter (mSetHash : ℕ) (txs : List Tx) :
    StrictWeakOn (ApplyTxSorter herder mSetHash) txs :=
  strictWeakOn_key (fun tx => mSetHash ^^^ herder.getFullHash tx) txs

theorem sort_applyTxSorter_perm (mSetHash : ℕ) (txs : List Tx) :
    (herder.std.sort (ApplyTxSorter herder mSetHash) txs).Perm txs :=
  herder.std.perm (strictWeakOn_applyTxSorter mSetHash txs)

theorem sort_applyTxSorter_nil (mSetHash : ℕ) :
    herder.std.sort (ApplyTxSorter herder mSetHash) [] = [] :=
  (sort_applyTxSorter_perm mSetHash []).eq_nil

variable {sha256 : ℕ → List Tx → ℕ}

/-- The transactions by sequence number. -/
def bySeqNum (herder : HerderImpl) (txSet : TxSetFrame) : List Tx :=
  herder.std.sort SeqSorter txSet.mTransactions

theorem bySeqNum_perm (txSet : TxSetFrame) :
    (bySeqNum herder txSet).Perm txSet.mTransactions := herder.std.perm (strictWeakOn_seqSorter _)

theorem bySeqNum_sorted (txSet : TxSetFrame) :
    (bySeqNum herder txSet).Pairwise fun a b => getSeqNum a ≤ getSeqNum b := by
  refine (herder.std.sorted (strictWeakOn_seqSorter _)).imp fun h => ?_
  exact not_lt.mp (of_decide_eq_false h)

/-- Batch after batch, each in the order of the hashes. -/
theorem sortForApply_eq_range (txSet : TxSetFrame) {n : ℕ}
    (hn : (txBatches (bySeqNum herder txSet)).length ≤ n) :
    sortForApply herder sha256 txSet = (List.range n).flatMap fun i =>
      herder.std.sort (ApplyTxSorter herder (getContentsHash herder sha256 txSet).1)
        (batch (bySeqNum herder txSet) i) := by
  show (txBatches (bySeqNum herder txSet)).flatMap _ = _
  rw [flatMap_eq_range _ (sort_applyTxSorter_nil _) hn]
  simp only [txBatches_getD]

theorem flatMap_getElem?_toList {α : Type} (l : List α) {n : ℕ} (hn : l.length ≤ n) :
    ((List.range n).flatMap fun i => l[i]?.toList) = l := by
  induction l generalizing n with
  | nil => simp
  | cons a l ih =>
    cases n with
    | zero => simp at hn
    | succ n =>
      rw [List.range_succ_eq_map, List.flatMap_cons, List.flatMap_map]
      show a :: (List.range n).flatMap (fun i => l[i]?.toList) = a :: l
      rw [ih (by simpa using hn)]

/-- **The transactions of one account** are applied in the order of their sequence numbers. -/
theorem txsOf_sortForApply (txSet : TxSetFrame) (id : AccountID) :
    txsOf (sortForApply herder sha256 txSet) id = txsOf (bySeqNum herder txSet) id := by
  set retList := bySeqNum herder txSet
  set own := txsOf retList id
  have hbatch (mSetHash i : ℕ) :
      txsOf (herder.std.sort (ApplyTxSorter herder mSetHash) (batch retList i)) id =
        own[i]?.toList := by
    have hperm : (txsOf (herder.std.sort (ApplyTxSorter herder mSetHash) (batch retList i)) id).Perm
        (txsOf (batch retList i) id) := (sort_applyTxSorter_perm mSetHash _).filter _
    rw [txsOf_batch] at hperm
    cases hi : own[i]? with
    | none =>
      rw [hi] at hperm
      exact hperm.eq_nil
    | some tx =>
      rw [hi] at hperm
      exact List.perm_singleton.mp hperm
  rw [sortForApply_eq_range txSet (le_max_left _ own.length), txsOf, List.filter_flatMap]
  have hfun : (fun i => (herder.std.sort
      (ApplyTxSorter herder (getContentsHash herder sha256 txSet).1) (batch retList i)).filter
        (getSourceID · = id)) = fun i => own[i]?.toList := by
    funext i
    exact hbatch _ i
  rw [hfun]
  exact flatMap_getElem?_toList own (le_max_right _ _)

/-- Nothing is lost, and nothing is added. -/
theorem sortForApply_perm (txSet : TxSetFrame) :
    (sortForApply herder sha256 txSet).Perm txSet.mTransactions := by
  have hcount (l : List Tx) (tx : Tx) : l.count tx = (txsOf l (getSourceID tx)).count tx := by
    unfold txsOf
    rw [List.count_filter (by simp)]
  rw [List.perm_iff_count]
  intro tx
  rw [hcount, txsOf_sortForApply, ← hcount]
  exact (bySeqNum_perm txSet).count_eq tx

end Sorted

/-! ## Different sequence numbers -/

section Distinct

variable {herder}

/-- The transactions of an account have different sequence numbers. -/
def DistinctSeqNums (txs : List Tx) : Prop :=
  (txs.map fun tx => (getSourceID tx, getSeqNum tx)).Nodup

instance (txs : List Tx) : Decidable (DistinctSeqNums txs) :=
  inferInstanceAs (Decidable (List.Nodup _))

/-- How many transactions of its account come before a transaction. -/
def position (txs : List Tx) (tx : Tx) : ℕ :=
  (txsOf txs (getSourceID tx)).countP fun other => getSeqNum other < getSeqNum tx

variable {txSet txSet' : TxSetFrame}

theorem txsOf_bySeqNum_strict (h : DistinctSeqNums txSet.mTransactions) (id : AccountID) :
    (txsOf (bySeqNum herder txSet) id).Pairwise fun a b => getSeqNum a < getSeqNum b := by
  have hne : (bySeqNum herder txSet).Pairwise fun a b =>
      (getSourceID a, getSeqNum a) ≠ (getSourceID b, getSeqNum b) :=
    List.pairwise_map.mp (((bySeqNum_perm txSet).map _).nodup_iff.mpr h)
  refine ((bySeqNum_sorted txSet).and hne).filter _ |>.imp_of_mem fun {a b} ha hb hab => ?_
  have ha : getSourceID a = id := (mem_txsOf.mp ha).2
  have hb : getSourceID b = id := (mem_txsOf.mp hb).2
  refine lt_of_le_of_ne hab.1 fun heq => hab.2 ?_
  rw [ha, hb, heq]

/-- In a list that is strictly sorted, as many elements as its index are less. -/
theorem countP_lt_of_getElem? {α : Type} {key : α → ℕ} {l : List α} {i : ℕ} {a : α}
    (hsorted : l.Pairwise fun a b => key a < key b) (hi : l[i]? = some a) :
    (l.countP fun b => key b < key a) = i := by
  induction l generalizing i with
  | nil => simp at hi
  | cons b l ih =>
    obtain ⟨hb, hsorted⟩ := List.pairwise_cons.mp hsorted
    cases i with
    | zero =>
      obtain rfl : b = a := by simpa using hi
      rw [List.countP_eq_zero]
      intro c hc
      rcases List.mem_cons.mp hc with rfl | hc
      · simp
      · simpa using (hb c hc).le
    | succ i =>
      rw [List.getElem?_cons_succ] at hi
      have hlt := hb a (List.mem_of_getElem? hi)
      rw [List.countP_cons_of_pos (by simpa using hlt), ih hsorted hi]

/-- A transaction is in the batch of its position. -/
theorem position_of_mem_batch (h : DistinctSeqNums txSet.mTransactions) {i : ℕ} {tx : Tx}
    (htx : tx ∈ batch (bySeqNum herder txSet) i) : position txSet.mTransactions tx = i := by
  have hi := mem_batch.mp htx
  have hperm : (txsOf (bySeqNum herder txSet) (getSourceID tx)).Perm
      (txsOf txSet.mTransactions (getSourceID tx)) := (bySeqNum_perm txSet).filter _
  unfold position
  rw [← hperm.countP_eq]
  exact countP_lt_of_getElem? (txsOf_bySeqNum_strict h _) hi

/-- What is sorted strictly is the same list in every order. -/
theorem txsOf_bySeqNum_congr {herder' : HerderImpl} (h : DistinctSeqNums txSet.mTransactions)
    (hperm : txSet'.mTransactions.Perm txSet.mTransactions) (id : AccountID) :
    txsOf (bySeqNum herder' txSet') id = txsOf (bySeqNum herder txSet) id := by
  have h' : DistinctSeqNums txSet'.mTransactions := (hperm.map _).nodup_iff.mpr h
  have hperm' : (bySeqNum herder' txSet').Perm (bySeqNum herder txSet) :=
    (bySeqNum_perm txSet').trans (hperm.trans (bySeqNum_perm txSet).symm)
  refine List.Perm.eq_of_pairwise (fun a b _ _ hab hba => ?_) (txsOf_bySeqNum_strict h' id)
    (txsOf_bySeqNum_strict h id) (hperm'.filter _)
  exact absurd hab (lt_asymm hba)

theorem ranks_map_fst (count : AccountID → ℕ) (txs : List Tx) :
    (ranks count txs).map Prod.fst = txs := by
  induction txs generalizing count with
  | nil => rfl
  | cons tx txs ih => rw [ranks, List.map_cons, ih]

theorem batch_sublist (txs : List Tx) (i : ℕ) : (batch txs i).Sublist txs := by
  have hsub : (batch txs i).Sublist ((ranks (fun _ => 0) txs).map Prod.fst) :=
    List.filter_sublist.map Prod.fst
  rwa [ranks_map_fst] at hsub

theorem batch_perm {herder' : HerderImpl} (h : DistinctSeqNums txSet.mTransactions)
    (hperm : txSet'.mTransactions.Perm txSet.mTransactions) (hnodup : txSet.mTransactions.Nodup)
    (i : ℕ) : (batch (bySeqNum herder' txSet') i).Perm (batch (bySeqNum herder txSet) i) := by
  have hbatch : (batch (bySeqNum herder txSet) i).Nodup :=
    (batch_sublist _ i).nodup ((bySeqNum_perm txSet).nodup_iff.mpr hnodup)
  have hbatch' : (batch (bySeqNum herder' txSet') i).Nodup :=
    (batch_sublist _ i).nodup
      ((bySeqNum_perm txSet').nodup_iff.mpr (hperm.nodup_iff.mpr hnodup))
  rw [List.perm_ext_iff_of_nodup hbatch' hbatch]
  intro tx
  rw [mem_batch, mem_batch, txsOf_bySeqNum_congr h hperm]

end Distinct

/-! ## The same order for all -/

section Canonical

variable {herder herder' : HerderImpl} {sha256 : ℕ → List Tx → ℕ} {txSet txSet' : TxSetFrame}

/-- For every set hash, the order is a strict total order. -/
theorem lessThanXored_total (x : ℕ) :
    (∀ l, lessThanXored l l x = false) ∧
      (∀ a b c, lessThanXored a b x = true → lessThanXored b c x = true →
        lessThanXored a c x = true) ∧
      ∀ l r, l ≠ r → lessThanXored l r x = true ∨ lessThanXored r l x = true := by
  refine ⟨fun l => decide_eq_false (lt_irrefl _), fun a b c hab hbc => ?_, fun l r hne => ?_⟩
  · exact decide_eq_true ((of_decide_eq_true hab).trans (of_decide_eq_true hbc))
  · have hxor : x ^^^ l ≠ x ^^^ r := fun h => hne (Nat.xor_right_injective h)
    rcases Nat.lt_or_gt_of_ne hxor with hlt | hlt
    · exact Or.inl (decide_eq_true hlt)
    · exact Or.inr (decide_eq_true hlt)

/-- The hash that is kept is that of the sorted set. Every change of the set drops it. -/
def Cached (herder : HerderImpl) (sha256 : ℕ → List Tx → ℕ) (txSet : TxSetFrame) : Prop :=
  ∀ h ∈ txSet.mHash, h = sha256 txSet.mPreviousLedgerHash txSet.mTransactions ∧
    txSet.mTransactions.Pairwise fun a b => herder.getFullHash a ≤ herder.getFullHash b

theorem sortForHash_sorted (txSet : TxSetFrame) :
    (sortForHash herder txSet).mTransactions.Pairwise
      fun a b => herder.getFullHash a ≤ herder.getFullHash b := by
  refine (herder.std.sorted (strictWeakOn_hashTxSorter herder _)).imp fun h => ?_
  exact not_lt.mp (of_decide_eq_false h)

theorem sortForHash_perm (txSet : TxSetFrame) :
    (sortForHash herder txSet).mTransactions.Perm txSet.mTransactions :=
  herder.std.perm (strictWeakOn_hashTxSorter herder _)

/-- The hash is that of the transactions in the order of their hashes. -/
theorem getContentsHash_spec (h : Cached herder sha256 txSet) :
    ∃ sorted : List Tx, sorted.Perm txSet.mTransactions ∧
      sorted.Pairwise (fun a b => herder.getFullHash a ≤ herder.getFullHash b) ∧
        (getContentsHash herder sha256 txSet).1 = sha256 txSet.mPreviousLedgerHash sorted := by
  unfold getContentsHash
  cases hhash : txSet.mHash with
  | some mHash =>
    obtain ⟨heq, hsorted⟩ := h mHash hhash
    exact ⟨_, List.Perm.refl _, hsorted, heq⟩
  | none => exact ⟨_, sortForHash_perm txSet, sortForHash_sorted txSet, rfl⟩

/-- Of transactions with different hashes each is known by its hash. -/
theorem eq_of_getFullHash {txs : List Tx} (h : (txs.map herder.getFullHash).Nodup) {a b : Tx}
    (ha : a ∈ txs) (hb : b ∈ txs) (heq : herder.getFullHash a = herder.getFullHash b) : a = b :=
  List.inj_on_of_nodup_map h ha hb heq

/-- The hash does not depend on the order of the transactions, nor on how they are sorted. -/
theorem getContentsHash_congr (hhash : herder'.getFullHash = herder.getFullHash)
    (hcached : Cached herder sha256 txSet) (hcached' : Cached herder' sha256 txSet')
    (hprev : txSet'.mPreviousLedgerHash = txSet.mPreviousLedgerHash)
    (hperm : txSet'.mTransactions.Perm txSet.mTransactions)
    (hnodup : (txSet.mTransactions.map herder.getFullHash).Nodup) :
    (getContentsHash herder' sha256 txSet').1 = (getContentsHash herder sha256 txSet).1 := by
  obtain ⟨sorted, hp, hs, heq⟩ := getContentsHash_spec hcached
  obtain ⟨sorted', hp', hs', heq'⟩ := getContentsHash_spec hcached'
  rw [hhash] at hs'
  have hsame : sorted' = sorted := by
    refine List.Perm.eq_of_pairwise (fun a b ha hb hab hba => ?_) hs' hs
      (hp'.trans (hperm.trans hp.symm))
    exact eq_of_getFullHash hnodup (hperm.mem_iff.mp (hp'.mem_iff.mp ha)) (hp.mem_iff.mp hb)
      (le_antisymm hab hba)
  rw [heq, heq', hprev, hsame]

/-- Sorting a batch by hash gives the same for all. -/
theorem sort_applyTxSorter_congr (hhash : herder'.getFullHash = herder.getFullHash)
    (mSetHash : ℕ) {txs txs' : List Tx} (hperm : txs'.Perm txs)
    (hnodup : (txs.map herder.getFullHash).Nodup) :
    herder'.std.sort (ApplyTxSorter herder' mSetHash) txs' =
      herder.std.sort (ApplyTxSorter herder mSetHash) txs := by
  have hsorter : ApplyTxSorter herder' mSetHash = ApplyTxSorter herder mSetHash := by
    funext a b
    unfold ApplyTxSorter
    rw [hhash]
  rw [hsorter]
  have hp := @sort_applyTxSorter_perm herder mSetHash txs
  have hp' := herder'.std.perm (@strictWeakOn_applyTxSorter herder mSetHash txs')
  refine List.Perm.eq_of_pairwise (fun a b ha hb hab hba => ?_)
    (herder'.std.sorted (strictWeakOn_applyTxSorter mSetHash txs'))
    (herder.std.sorted (strictWeakOn_applyTxSorter mSetHash txs))
    (hp'.trans (hperm.trans hp.symm))
  refine eq_of_getFullHash hnodup (hperm.mem_iff.mp (hp'.mem_iff.mp ha)) (hp.mem_iff.mp hb) ?_
  -- neither is less
  by_contra hne
  rcases (lessThanXored_total mSetHash).2.2 _ _ hne with hlt | hlt
  · exact absurd (hlt.symm.trans hba) (by decide)
  · exact absurd (hlt.symm.trans hab) (by decide)

theorem sortForApply_congr (hhash : herder'.getFullHash = herder.getFullHash)
    (hcached : Cached herder sha256 txSet) (hcached' : Cached herder' sha256 txSet')
    (hprev : txSet'.mPreviousLedgerHash = txSet.mPreviousLedgerHash)
    (hperm : txSet'.mTransactions.Perm txSet.mTransactions)
    (hnodup : (txSet.mTransactions.map herder.getFullHash).Nodup)
    (hseq : DistinctSeqNums txSet.mTransactions) :
    sortForApply herder' sha256 txSet' = sortForApply herder sha256 txSet := by
  rw [sortForApply_eq_range txSet (le_max_left _ (txBatches (bySeqNum herder' txSet')).length),
    sortForApply_eq_range txSet' (le_max_right (txBatches (bySeqNum herder txSet)).length _),
    getContentsHash_congr hhash hcached hcached' hprev hperm hnodup]
  congr 1
  funext i
  refine sort_applyTxSorter_congr hhash _ (batch_perm hseq hperm (hnodup.of_map _) i) ?_
  exact ((batch_sublist _ i).map _).nodup (((bySeqNum_perm txSet).map _).nodup_iff.mpr hnodup)

/-- Batches come one after the other. -/
theorem sortForApply_rounds (hseq : DistinctSeqNums txSet.mTransactions) :
    (sortForApply herder sha256 txSet).Pairwise
      fun a b => position txSet.mTransactions a ≤ position txSet.mTransactions b := by
  have hpos {i : ℕ} {tx : Tx} {mSetHash : ℕ} (htx : tx ∈ herder.std.sort
      (ApplyTxSorter herder mSetHash) (batch (bySeqNum herder txSet) i)) :
      position txSet.mTransactions tx = i :=
    position_of_mem_batch hseq ((sort_applyTxSorter_perm mSetHash _).mem_iff.mp htx)
  rw [sortForApply_eq_range txSet le_rfl, List.pairwise_flatMap]
  refine ⟨fun i _ => ?_, ?_⟩
  · refine List.pairwise_of_forall_mem_list fun a ha b hb => ?_
    rw [hpos ha, hpos hb]
  · refine List.pairwise_lt_range.imp fun {i j} hij a ha b hb => ?_
    rw [hpos ha, hpos hb]
    exact hij.le

/-- The hash of a set of which nothing matters but that there is one. -/
def sizeHash (previousLedgerHash : ℕ) (txs : List Tx) : ℕ := previousLedgerHash + txs.length

end Canonical

end SmartCore.Herder
