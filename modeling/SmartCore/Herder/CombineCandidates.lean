import Mathlib.Order.Bounds.Basic
import SmartCore.Herder.ApplyOrder
import SmartCore.Lib.Xdr
import SmartCore.SCP.Slot

/-!
# Values of consensus

What the nodes agree on for a ledger is a `StellarValue`: a transaction set, known by its hash, a
close time and upgrades. Nomination leaves a node with a set of candidates, each of which it has
validated. `combineCandidates` makes one value of them: the latest close time, the highest of each
kind of upgrade, and the largest transaction set, where a tie is broken by the hashes xored with
those of the candidates.

**Theorem (`combineCandidates_valid`).** If every candidate is fully valid, so is the value made of
them, and every node that has the same candidates makes the same value.

The transaction set is copied and trimmed, just to be sure. Nothing is trimmed of a set that is
valid (`validTxs_perm`), so the hash of the copy is that of the candidate.
-/

namespace SmartCore.Herder

open SmartCore.Ledger SmartCore.Transactions TxSetFrame
open SmartCore.SCP (ValidationLevel)
open SmartCore.Transactions.LedgerManager (LedgerUpgrade)

/-! ## Values -/

abbrev Value := List Byte

/-- An encoded `LedgerUpgrade`. -/
abbrev UpgradeType := List Byte

structure StellarValue where
  txSetHash : ℕ := 0
  closeTime : ℕ := 0
  upgrades : List UpgradeType := []
deriving DecidableEq, Repr

inductive LedgerUpgradeType where
  | LEDGER_UPGRADE_VERSION
  | LEDGER_UPGRADE_MAX_TX_SET_SIZE
deriving DecidableEq, Repr

def LedgerUpgradeType.code : LedgerUpgradeType → ℕ
  | LEDGER_UPGRADE_VERSION => 1
  | LEDGER_UPGRADE_MAX_TX_SET_SIZE => 2

def type : LedgerUpgrade → LedgerUpgradeType
  | .LEDGER_UPGRADE_VERSION _ => .LEDGER_UPGRADE_VERSION
  | .LEDGER_UPGRADE_MAX_TX_SET_SIZE _ => .LEDGER_UPGRADE_MAX_TX_SET_SIZE

/-- `newLedgerVersion()` or `newMaxTxSetSize()`, whichever it has. -/
def newValue : LedgerUpgrade → ℕ
  | .LEDGER_UPGRADE_VERSION newLedgerVersion => newLedgerVersion
  | .LEDGER_UPGRADE_MAX_TX_SET_SIZE newMaxTxSetSize => newMaxTxSetSize

theorem upgrade_ext {u v : LedgerUpgrade} (htype : type u = type v)
    (hvalue : newValue u = newValue v) : u = v := by
  cases u <;> cases v <;> cases htype <;> cases hvalue <;> rfl

/-! ### How they are marshalled -/

/-- The bytes of a value. `none` is an `xdr_runtime_error`. -/
structure Opaque (α : Type) where
  xdrToOpaque : α → List Byte
  xdrFromOpaque : List Byte → Option α

/-- The code that is generated for the two types, and the library that it uses. -/
structure Xdr where
  stellarValue : Opaque StellarValue
  ledgerUpgrade : Opaque LedgerUpgrade

/-- A `Hash`, a `uint64` and `UpgradeType upgrades<6>`, where `UpgradeType<128>`. -/
def StellarValue.Fits (b : StellarValue) : Prop :=
  b.txSetHash < 2 ^ 256 ∧ b.closeTime < 2 ^ 64 ∧ b.upgrades.length ≤ 6 ∧
    ∀ upgrade ∈ b.upgrades, upgrade.length ≤ 128

/-- What is written is read, what is read fits the type, and nothing else is read as it. -/
structure Opaque.Lawful {α : Type} (o : Opaque α) (Fits : α → Prop) : Prop where
  read : ∀ a, Fits a → o.xdrFromOpaque (o.xdrToOpaque a) = some a
  fits : ∀ bytes a, o.xdrFromOpaque bytes = some a → Fits a
  canonical : ∀ bytes a, o.xdrFromOpaque bytes = some a → o.xdrToOpaque a = bytes

/-- What the code relies on. An upgrade has eight bytes, and a value is never empty. -/
structure Xdr.Lawful (xdr : Xdr) : Prop where
  stellarValue : xdr.stellarValue.Lawful StellarValue.Fits
  ledgerUpgrade : xdr.ledgerUpgrade.Lawful (newValue · < 2 ^ 32)
  length_upgrade : ∀ u, (xdr.ledgerUpgrade.xdrToOpaque u).length = 8
  value_ne_nil : ∀ b, xdr.stellarValue.xdrToOpaque b ≠ []

/-! ## Trimming a valid set -/

section Trimming

variable {herder : HerderImpl} {s : LedgerState} {txs : List Tx}

theorem chain_eq_of_validFrom {lastSeq : ℕ} (h : ValidFrom herder s lastSeq txs) :
    chain herder s lastSeq txs = txs := by
  induction txs generalizing lastSeq with
  | nil => rfl
  | cons tx txs ih =>
    unfold chain
    rw [if_pos h.1, ih h.2]

theorem perm_of_txsOf {txs' : List Tx} (h : ∀ id, (txsOf txs id).Perm (txsOf txs' id)) :
    txs.Perm txs' := by
  rw [List.perm_iff_count]
  intro tx
  have hcount : ∀ l : List Tx, (txsOf l (getSourceID tx)).count tx = l.count tx := fun l =>
    List.count_filter (by simp)
  rw [← hcount txs, ← hcount txs']
  exact (h (getSourceID tx)).count_eq tx

/-- Transactions with different hashes have one order by hash. -/
theorem eq_of_sorted {txs' : List Tx} (hinj : Set.InjOn herder.getFullHash { tx | tx ∈ txs })
    (hsorted : txs.Pairwise fun a b => herder.getFullHash a ≤ herder.getFullHash b)
    (hsorted' : txs'.Pairwise fun a b => herder.getFullHash a ≤ herder.getFullHash b)
    (hperm : txs'.Perm txs) : txs' = txs := by
  refine List.Perm.eq_of_pairwise (fun a b ha hb hab hba => ?_) hsorted' hsorted hperm
  exact hinj (hperm.mem_iff.mp ha) hb (le_antisymm hab hba)

theorem sort_hashTxSorter_eq (hinj : Set.InjOn herder.getFullHash { tx | tx ∈ txs })
    (hsorted : txs.Pairwise fun a b => herder.getFullHash a ≤ herder.getFullHash b)
    {txs' : List Tx} (hperm : txs'.Perm txs) :
    herder.std.sort (HashTxSorter herder) txs' = txs :=
  eq_of_sorted hinj hsorted (sortForHash_sorted ⟨0, txs', none⟩)
    ((sortForHash_perm ⟨0, txs', none⟩).trans hperm)

theorem pairwise_of_sortedByHash {lastHash : ℕ} (h : sortedByHash herder lastHash txs = true) :
    (∀ tx ∈ txs, lastHash ≤ herder.getFullHash tx) ∧
      txs.Pairwise fun a b => herder.getFullHash a ≤ herder.getFullHash b := by
  induction txs generalizing lastHash with
  | nil => exact ⟨nofun, .nil⟩
  | cons tx txs ih =>
    unfold sortedByHash at h
    split_ifs at h with hlt
    obtain ⟨hle, hsorted⟩ := ih h
    refine ⟨List.forall_mem_cons.mpr ⟨not_lt.mp hlt, fun tx' htx' => ?_⟩,
      List.pairwise_cons.mpr ⟨hle, hsorted⟩⟩
    exact (not_lt.mp hlt).trans (hle tx' htx')

/-- **Nothing is trimmed of a valid set.** -/
theorem validTxs_perm (h : Accepted herder s txs)
    (hinj : Set.InjOn herder.getFullHash { tx | tx ∈ txs }) : (validTxs herder s txs).Perm txs := by
  have hsort : herder.std.sort (HashTxSorter herder) txs = txs :=
    sort_hashTxSorter_eq hinj (pairwise_of_sortedByHash h.sorted).2 (.refl _)
  refine perm_of_txsOf fun id => (txsOf_validTxs_perm txs id).trans ?_
  have hleft : leftOf herder s txs id = sortedOf herder txs id := by
    unfold leftOf
    dsimp only
    rw [chain_eq_of_validFrom (h.chains id), if_pos (h.pays id)]
  rw [hsort, hleft]
  exact sortedOf_perm txs id

end Trimming

/-! ## Nodes -/

/-- The last value that was agreed on, and its ledger. -/
structure ConsensusData where
  mConsensusIndex : ℕ
  closeTime : ℕ
deriving DecidableEq, Repr

/-- A node: its ledger, of which the accounts are valid, its configuration, and the transaction sets
it knows. A set that is received or proposed is put in under its contents hash, which sorts it. -/
structure Node where
  herder : HerderImpl
  s : LedgerState
  rowsValid : RowsValid s
  isSynced : Bool
  -- of the last closed ledger
  lclHash : ℕ
  lclSeq : ℕ
  lclCloseTime : ℕ
  mTrackingSCP : Option ConsensusData
  timeNow : ℕ
  LEDGER_PROTOCOL_VERSION : ℕ
  DESIRED_MAX_TX_PER_LEDGER : ℕ
  -- the hash of a value, and of the previous ledger's hash and the envelopes
  sha256 : Value → ℕ
  contentsHash : ℕ → List Tx → ℕ
  getTxSet : ℕ → Option TxSetFrame
  stored : ∀ h txSet, getTxSet h = some txSet →
    txSet.mHash = some h ∧ Cached herder contentsHash txSet

namespace Node

variable (xdr : Xdr) (node : Node)

/-! ### Validation -/

/-- `TxSetFrame::checkValid` -/
def checkValid (txSet : TxSetFrame) : Except Exit Bool :=
  if node.lclHash ≠ txSet.mPreviousLedgerHash then return false
  else Herder.checkValid node.herder node.s txSet.mTransactions

def isSlotCompatibleWithCurrentState (slotIndex : ℕ) : Bool :=
  node.isSynced && slotIndex = (node.lclSeq + 1) % 2 ^ 32

def MAX_TIME_SLIP_SECONDS : ℕ := 60

/-- Neither too old nor too far in the future. -/
def closeTimeValid (b : StellarValue) (lastCloseTime : ℕ) : Bool :=
  lastCloseTime < b.closeTime ∧ b.closeTime ≤ (node.timeNow + MAX_TIME_SLIP_SECONDS) % 2 ^ 64

def validateTxSet (txSetHash : ℕ) : Except Exit ValidationLevel := do
  match node.getTxSet txSetHash with
  | none => return .kInvalidValue
  | some txSet =>
    if ← node.checkValid txSet then return .kFullyValidatedValue else return .kInvalidValue

def validateValueHelper (slotIndex : ℕ) (b : StellarValue) : Except Exit ValidationLevel :=
  if node.isSlotCompatibleWithCurrentState slotIndex then
    if node.closeTimeValid b node.lclCloseTime then node.validateTxSet b.txSetHash
    else return .kInvalidValue
  else
    match node.mTrackingSCP with
    | none => return .kMaybeValidValue
    | some tracking =>
      if 2 ^ 32 ≤ tracking.mConsensusIndex then throw .abort
      else
        let nextConsensusLedgerIndex := (tracking.mConsensusIndex + 1) % 2 ^ 32
        if slotIndex < nextConsensusLedgerIndex then return .kMaybeValidValue
        else if nextConsensusLedgerIndex < slotIndex then return .kInvalidValue
        -- this is as far as we can go if we don't have the state
        else if node.closeTimeValid b tracking.closeTime then return .kMaybeValidValue
        else return .kInvalidValue

/-- Whether an upgrade is acceptable. -/
def accepts : LedgerUpgrade → Bool
  | .LEDGER_UPGRADE_VERSION newVersion => newVersion = node.LEDGER_PROTOCOL_VERSION
  | .LEDGER_UPGRADE_MAX_TX_SET_SIZE newMax =>
    -- within 30% of the config value, in 32 bits
    node.DESIRED_MAX_TX_PER_LEDGER * 7 % 2 ^ 32 / 10 ≤ newMax ∧
      newMax ≤ node.DESIRED_MAX_TX_PER_LEDGER * 13 % 2 ^ 32 / 10

/-- The type of the upgrade, if it is valid. -/
def validateUpgradeStep (upgrade : UpgradeType) : Option LedgerUpgradeType :=
  match xdr.ledgerUpgrade.xdrFromOpaque upgrade with
  | none => none
  | some lupgrade => if node.accepts lupgrade then some (type lupgrade) else none

/-- The loop over the upgrades of a value. Once a step is not valid, the value is not. -/
def validateUpgrades : Option LedgerUpgradeType → List UpgradeType → Bool
  | _, [] => true
  | lastUpgradeType, upgrade :: upgrades =>
    match node.validateUpgradeStep xdr upgrade with
    | none => false
    | some thisUpgradeType =>
      (lastUpgradeType.all fun last => last.code < thisUpgradeType.code) &&
        validateUpgrades (some thisUpgradeType) upgrades

def validateValue (slotIndex : ℕ) (value : Value) : Except Exit ValidationLevel := do
  match xdr.stellarValue.xdrFromOpaque value with
  | none => return .kInvalidValue
  | some b =>
    let res ← node.validateValueHelper slotIndex b
    if res ≠ .kInvalidValue && !node.validateUpgrades xdr none b.upgrades then return .kInvalidValue
    else return res

/-! ### Combining candidates -/

/-- The upgrades so far, by type. -/
abbrev Upgrades := LedgerUpgradeType → Option LedgerUpgrade

/-- Picks the higher one of each type. -/
def mergeUpgrade (upgrades : Upgrades) (lupgrade : LedgerUpgrade) : Upgrades :=
  Function.update upgrades (type lupgrade) <|
    match upgrades (type lupgrade) with
    | none => some lupgrade
    | some clUpgrade =>
      some (if newValue clUpgrade < newValue lupgrade then lupgrade else clUpgrade)

/-- The variables of the loop over the candidates. -/
structure Combination where
  candidateValues : List StellarValue := []
  candidatesHash : ℕ := 0
  closeTime : ℕ := 0
  upgrades : Upgrades := fun _ => none

def decode {α : Type} (o : Opaque α) (input : List Byte) : Except Exit α :=
  match o.xdrFromOpaque input with
  | some a => .ok a
  | none => .error (.exception "xdr_runtime_error")

def addCandidate (acc : Combination) (c : Value) : Except Exit Combination := do
  let sv ← decode xdr.stellarValue c
  let lupgrades ← sv.upgrades.mapM (decode xdr.ledgerUpgrade)
  return {
    candidateValues := acc.candidateValues ++ [sv]
    candidatesHash := acc.candidatesHash ^^^ node.sha256 c
    closeTime := if acc.closeTime < sv.closeTime then sv.closeTime else acc.closeTime
    upgrades := lupgrades.foldl mergeUpgrade acc.upgrades }

/-- One step of the choice of a transaction set: the highest number of transactions, and of those
the highest xored hash. -/
def pickTxSet (candidatesHash : ℕ) (highest : Option (TxSetFrame × ℕ)) (sv : StellarValue) :
    Option (TxSetFrame × ℕ) :=
  match node.getTxSet sv.txSetHash with
  | none => highest
  | some cTxSet =>
    if cTxSet.mPreviousLedgerHash ≠ node.lclHash then highest
    else
      match highest with
      | none => some (cTxSet, sv.txSetHash)
      | some (highestTxSet, highestHash) =>
        if highestTxSet.mTransactions.length < cTxSet.mTransactions.length ∨
            cTxSet.mTransactions.length = highestTxSet.mTransactions.length ∧
              lessThanXored highestHash sv.txSetHash candidatesHash then
          some (cTxSet, sv.txSetHash)
        else some (highestTxSet, highestHash)

/-- The upgrades in the order of the map. -/
def upgradeList (upgrades : Upgrades) : List LedgerUpgrade :=
  [LedgerUpgradeType.LEDGER_UPGRADE_VERSION, .LEDGER_UPGRADE_MAX_TX_SET_SIZE].filterMap upgrades

/-- The candidates are in the order of the set. -/
def combineCandidates (candidates : List Value) : Except Exit Value := do
  let acc ← candidates.foldlM (node.addCandidate xdr) {}
  match acc.candidateValues.foldl (node.pickTxSet acc.candidatesHash) none with
  | none => throw .abort
  | some (bestTxSet, _) =>
    -- just to be sure
    let (mTransactions, _) ← trimInvalid node.herder node.s bestTxSet.mTransactions
    let bestTxSet := { bestTxSet with mTransactions, mHash := none }
    return xdr.stellarValue.xdrToOpaque {
      txSetHash := (getContentsHash node.herder node.contentsHash bestTxSet).1
      closeTime := acc.closeTime
      upgrades := (upgradeList acc.upgrades).map xdr.ledgerUpgrade.xdrToOpaque }

/-! ## Valid values -/

section Valid

variable {xdr} {node} {slotIndex : ℕ} {b : StellarValue}

/-- What is checked of a value that is fully valid. -/
structure FullyValid (xdr : Xdr) (node : Node) (slotIndex : ℕ) (b : StellarValue) : Prop where
  compat : node.isSlotCompatibleWithCurrentState slotIndex = true
  closeTime : node.closeTimeValid b node.lclCloseTime = true
  txSet : ∃ txSet, node.getTxSet b.txSetHash = some txSet ∧ node.checkValid txSet = .ok true
  upgrades : node.validateUpgrades xdr none b.upgrades = true

theorem validateTxSet_iff {txSetHash : ℕ} :
    node.validateTxSet txSetHash = .ok .kFullyValidatedValue ↔
      ∃ txSet, node.getTxSet txSetHash = some txSet ∧ node.checkValid txSet = .ok true := by
  unfold validateTxSet
  cases node.getTxSet txSetHash with
  | none => exact iff_of_false nofun nofun
  | some txSet =>
    have hsome : (∃ t, some txSet = some t ∧ node.checkValid t = .ok true) ↔
        node.checkValid txSet = .ok true := by simp
    rw [hsome]
    dsimp only
    cases node.checkValid txSet with
    | error e => exact iff_of_false nofun nofun
    | ok valid =>
      cases valid with
      | true => exact iff_of_true rfl rfl
      | false => exact iff_of_false nofun nofun

theorem validateValueHelper_iff :
    node.validateValueHelper slotIndex b = .ok .kFullyValidatedValue ↔
      node.isSlotCompatibleWithCurrentState slotIndex = true ∧
        node.closeTimeValid b node.lclCloseTime = true ∧
          ∃ txSet, node.getTxSet b.txSetHash = some txSet ∧ node.checkValid txSet = .ok true := by
  rw [← validateTxSet_iff]
  unfold validateValueHelper
  by_cases hcompat : node.isSlotCompatibleWithCurrentState slotIndex = true
  · rw [if_pos hcompat]
    by_cases hclose : node.closeTimeValid b node.lclCloseTime = true
    · rw [if_pos hclose]
      exact ⟨fun h => ⟨hcompat, hclose, h⟩, fun h => h.2.2⟩
    · rw [if_neg hclose]
      exact iff_of_false nofun fun h => hclose h.2.1
  · rw [if_neg hcompat]
    refine iff_of_false (fun h => ?_) fun h => hcompat h.1
    -- without the state, a value is at most maybe valid
    split at h
    · cases h
    · dsimp only at h
      split_ifs at h <;> cases h

theorem validateValue_iff {value : Value} :
    node.validateValue xdr slotIndex value = .ok .kFullyValidatedValue ↔
      ∃ b, xdr.stellarValue.xdrFromOpaque value = some b ∧ FullyValid xdr node slotIndex b := by
  unfold validateValue
  cases xdr.stellarValue.xdrFromOpaque value with
  | none => exact iff_of_false nofun nofun
  | some b =>
    have hsome : (∃ b', some b = some b' ∧ FullyValid xdr node slotIndex b') ↔
        node.validateValueHelper slotIndex b = .ok .kFullyValidatedValue ∧
          node.validateUpgrades xdr none b.upgrades = true := by
      rw [validateValueHelper_iff]
      constructor
      · rintro ⟨b', heq, h⟩
        cases heq
        exact ⟨⟨h.compat, h.closeTime, h.txSet⟩, h.upgrades⟩
      · rintro ⟨⟨hcompat, hclose, htxSet⟩, hupgrades⟩
        exact ⟨b, rfl, hcompat, hclose, htxSet, hupgrades⟩
    rw [hsome]
    dsimp only
    cases node.validateValueHelper slotIndex b with
    | error e => exact iff_of_false nofun nofun
    | ok res =>
      cases node.validateUpgrades xdr none b.upgrades with
      | true => cases res <;> simp [bind, Except.bind, pure, Except.pure]
      | false => cases res <;> simp [bind, Except.bind, pure, Except.pure]

/-- The upgrades of a valid value are ones that the node accepts. -/
theorem accepts_of_validateUpgrades {last : Option LedgerUpgradeType} {upgrades : List UpgradeType}
    (h : node.validateUpgrades xdr last upgrades = true) :
    ∀ upgrade ∈ upgrades, ∃ lupgrade, xdr.ledgerUpgrade.xdrFromOpaque upgrade = some lupgrade ∧
      node.accepts lupgrade = true := by
  induction upgrades generalizing last with
  | nil => exact nofun
  | cons upgrade upgrades ih =>
    unfold validateUpgrades validateUpgradeStep at h
    cases hdecode : xdr.ledgerUpgrade.xdrFromOpaque upgrade with
    | none => simp [hdecode] at h
    | some lupgrade =>
      simp only [hdecode] at h
      by_cases haccepts : node.accepts lupgrade = true
      · rw [if_pos haccepts, Bool.and_eq_true] at h
        exact List.forall_mem_cons.mpr ⟨⟨lupgrade, hdecode, haccepts⟩, ih h.2⟩
      · rw [if_neg haccepts] at h
        cases h

/-- Upgrades in the order of their types. -/
theorem validateUpgrades_of_accepts (hxdr : xdr.Lawful) {last : Option LedgerUpgradeType}
    {lupgrades : List LedgerUpgrade}
    (haccepts : ∀ u ∈ lupgrades, node.accepts u = true ∧ newValue u < 2 ^ 32)
    (hsorted : lupgrades.Pairwise fun u v => (type u).code < (type v).code)
    (hlast : ∀ t ∈ last, ∀ u ∈ lupgrades, t.code < (type u).code) :
    node.validateUpgrades xdr last (lupgrades.map xdr.ledgerUpgrade.xdrToOpaque) = true := by
  induction lupgrades generalizing last with
  | nil => rfl
  | cons u lupgrades ih =>
    obtain ⟨hu, hrest⟩ := List.forall_mem_cons.mp haccepts
    obtain ⟨hlt, hsorted⟩ := List.pairwise_cons.mp hsorted
    have hstep : node.validateUpgradeStep xdr (xdr.ledgerUpgrade.xdrToOpaque u) =
        some (type u) := by
      unfold validateUpgradeStep
      rw [hxdr.ledgerUpgrade.read u hu.2]
      exact if_pos hu.1
    unfold validateUpgrades
    rw [List.map_cons]
    simp only [hstep, Bool.and_eq_true]
    refine ⟨?_, ih hrest hsorted fun t ht v hv => ?_⟩
    · cases last with
      | none => rfl
      | some t => exact decide_eq_true (hlast t rfl u List.mem_cons_self)
    · obtain rfl := Option.some.inj ht
      exact hlt v hv

end Valid

/-! ## The loop over the candidates -/

/-- The candidates, decoded. -/
def values (candidates : List Value) : List StellarValue :=
  candidates.filterMap xdr.stellarValue.xdrFromOpaque

/-- Their upgrades. -/
def offered (candidates : List Value) : List LedgerUpgrade :=
  (values xdr candidates).flatMap fun sv => sv.upgrades.filterMap xdr.ledgerUpgrade.xdrFromOpaque

/-- Candidates that can be decoded, with their upgrades. -/
def Readable (c : Value) : Prop :=
  ∃ sv, xdr.stellarValue.xdrFromOpaque c = some sv ∧
    ∀ upgrade ∈ sv.upgrades, ∃ lupgrade, xdr.ledgerUpgrade.xdrFromOpaque upgrade = some lupgrade

section Loop

variable {xdr} {node} {candidates : List Value}

theorem mapM_decode {upgrades : List UpgradeType}
    (h : ∀ upgrade ∈ upgrades, ∃ lupgrade,
      xdr.ledgerUpgrade.xdrFromOpaque upgrade = some lupgrade) :
    upgrades.mapM (decode xdr.ledgerUpgrade) =
      .ok (upgrades.filterMap xdr.ledgerUpgrade.xdrFromOpaque) := by
  induction upgrades with
  | nil => rfl
  | cons upgrade upgrades ih =>
    obtain ⟨⟨lupgrade, hdecode⟩, hrest⟩ := List.forall_mem_cons.mp h
    rw [List.mapM_cons, List.filterMap_cons, hdecode, decode, hdecode, ih hrest]
    rfl

/-- What the loop adds up. -/
def combination (xdr : Xdr) (node : Node) (candidates : List Value) (acc : Combination) :
    Combination where
  candidateValues := acc.candidateValues ++ values xdr candidates
  candidatesHash := candidates.foldl (fun h c => h ^^^ node.sha256 c) acc.candidatesHash
  closeTime := (values xdr candidates).foldl (fun t sv => max t sv.closeTime) acc.closeTime
  upgrades := (offered xdr candidates).foldl mergeUpgrade acc.upgrades

theorem foldlM_addCandidate (h : ∀ c ∈ candidates, Readable xdr c) (acc : Combination) :
    candidates.foldlM (node.addCandidate xdr) acc = .ok (combination xdr node candidates acc) := by
  induction candidates generalizing acc with
  | nil =>
    rw [combination]
    simp [values, offered]
    rfl
  | cons c candidates ih =>
    obtain ⟨⟨sv, hsv, hupgrades⟩, hrest⟩ := List.forall_mem_cons.mp h
    have hvalues : values xdr (c :: candidates) = sv :: values xdr candidates := by
      rw [values, List.filterMap_cons, hsv]
      rfl
    have hmax : (if acc.closeTime < sv.closeTime then sv.closeTime else acc.closeTime) =
        max acc.closeTime sv.closeTime := by
      rw [max_def_lt]
    have hadd : node.addCandidate xdr acc c = .ok {
        candidateValues := acc.candidateValues ++ [sv]
        candidatesHash := acc.candidatesHash ^^^ node.sha256 c
        closeTime := max acc.closeTime sv.closeTime
        upgrades := (sv.upgrades.filterMap xdr.ledgerUpgrade.xdrFromOpaque).foldl mergeUpgrade
          acc.upgrades } := by
      have hread : decode xdr.stellarValue c = .ok sv := by rw [decode, hsv]
      simp only [addCandidate, hread, bind, Except.bind, mapM_decode hupgrades, hmax]
      rfl
    rw [List.foldlM_cons, hadd]
    refine (ih hrest _).trans (congrArg Except.ok ?_)
    simp only [combination, offered, hvalues, List.flatMap_cons, List.foldl_cons, List.foldl_append,
      List.append_assoc, List.singleton_append]

/-! ### The close time -/

theorem isGreatest_foldl_max {svs : List StellarValue} (hne : svs ≠ []) :
    IsGreatest { t | ∃ sv ∈ svs, sv.closeTime = t }
      (svs.foldl (fun t sv => max t sv.closeTime) 0) := by
  -- generalised over what was there before
  have hfold : ∀ (svs : List StellarValue) (t : ℕ),
      t ≤ svs.foldl (fun t sv => max t sv.closeTime) t ∧
      (∀ sv ∈ svs, sv.closeTime ≤ svs.foldl (fun t sv => max t sv.closeTime) t) ∧
      (svs.foldl (fun t sv => max t sv.closeTime) t = t ∨
        ∃ sv ∈ svs, sv.closeTime = svs.foldl (fun t sv => max t sv.closeTime) t) := by
    intro svs
    induction svs with
    | nil => exact fun t => ⟨le_rfl, nofun, Or.inl rfl⟩
    | cons sv svs ih =>
      intro t
      obtain ⟨hle, hall, hmax⟩ := ih (max t sv.closeTime)
      rw [List.foldl_cons]
      refine ⟨(le_max_left _ _).trans hle, ?_, ?_⟩
      · exact List.forall_mem_cons.mpr ⟨(le_max_right _ _).trans hle, hall⟩
      · rcases hmax with hmax | ⟨sv', hmem, hmax⟩
        · rcases le_total t sv.closeTime with htime | htime
          · exact Or.inr ⟨sv, List.mem_cons_self, by rw [hmax, max_eq_right htime]⟩
          · exact Or.inl (by rw [hmax, max_eq_left htime])
        · exact Or.inr ⟨sv', List.mem_cons_of_mem _ hmem, hmax⟩
  obtain ⟨-, hall, hmax⟩ := hfold svs 0
  refine ⟨?_, ?_⟩
  · rcases hmax with hmax | hmax
    · obtain ⟨sv, hsv⟩ := List.exists_mem_of_ne_nil svs hne
      refine ⟨sv, hsv, ?_⟩
      have := hall sv hsv
      omega
    · exact hmax
  · rintro t ⟨sv, hsv, rfl⟩
    exact hall sv hsv

/-! ### The upgrades -/

/-- The highest upgrade of a type. -/
def IsHighest (lupgrades : List LedgerUpgrade) (t : LedgerUpgradeType) (u : LedgerUpgrade) : Prop :=
  u ∈ lupgrades ∧ type u = t ∧ ∀ v ∈ lupgrades, type v = t → newValue v ≤ newValue u

theorem IsHighest.unique {lupgrades : List LedgerUpgrade} {t : LedgerUpgradeType}
    {u v : LedgerUpgrade} (hu : IsHighest lupgrades t u) (hv : IsHighest lupgrades t v) : u = v :=
  upgrade_ext (hu.2.1.trans hv.2.1.symm)
    (le_antisymm (hv.2.2 u hu.1 hu.2.1) (hu.2.2 v hv.1 hv.2.1))

/-- What is in the map for a type. -/
def Best (lupgrades : List LedgerUpgrade) (t : LedgerUpgradeType) : Option LedgerUpgrade → Prop
  | none => ∀ v ∈ lupgrades, type v ≠ t
  | some u => IsHighest lupgrades t u

theorem Best.mergeUpgrade {lupgrades : List LedgerUpgrade} {upgrades : Upgrades}
    (h : ∀ t, Best lupgrades t (upgrades t)) (v : LedgerUpgrade) (t : LedgerUpgradeType) :
    Best (lupgrades ++ [v]) t (mergeUpgrade upgrades v t) := by
  unfold Node.mergeUpgrade
  by_cases ht : t = type v
  · subst ht
    rw [Function.update_self]
    have hv := h (type v)
    cases hcl : upgrades (type v) with
    | none =>
      rw [hcl] at hv
      refine ⟨by simp, rfl, fun w hw htype => ?_⟩
      rcases List.mem_append.mp hw with hw | hw
      · exact absurd htype (hv w hw)
      · rw [List.mem_singleton.mp hw]
    | some clUpgrade =>
      rw [hcl] at hv
      obtain ⟨hmem, htype, hle⟩ := hv
      dsimp only
      split_ifs with hlt
      · refine ⟨by simp, rfl, fun w hw hw' => ?_⟩
        rcases List.mem_append.mp hw with hw | hw
        · exact (hle w hw hw').trans hlt.le
        · rw [List.mem_singleton.mp hw]
      · refine ⟨List.mem_append_left _ hmem, htype, fun w hw hw' => ?_⟩
        rcases List.mem_append.mp hw with hw | hw
        · exact hle w hw hw'
        · rw [List.mem_singleton.mp hw]
          exact not_lt.mp hlt
  · rw [Function.update_of_ne ht]
    have hold := h t
    cases hcl : upgrades t with
    | none =>
      rw [hcl] at hold
      intro w hw
      rcases List.mem_append.mp hw with hw | hw
      · exact hold w hw
      · rw [List.mem_singleton.mp hw]
        exact Ne.symm ht
    | some u =>
      rw [hcl] at hold
      obtain ⟨hmem, htype, hle⟩ := hold
      refine ⟨List.mem_append_left _ hmem, htype, fun w hw hw' => ?_⟩
      rcases List.mem_append.mp hw with hw | hw
      · exact hle w hw hw'
      · rw [List.mem_singleton.mp hw] at hw'
        exact absurd hw'.symm ht

/-- **The map has the highest upgrade of each type.** -/
theorem best_foldl_mergeUpgrade (lupgrades : List LedgerUpgrade) (t : LedgerUpgradeType) :
    Best lupgrades t (lupgrades.foldl mergeUpgrade (fun _ => none) t) := by
  induction lupgrades using List.reverseRecOn generalizing t with
  | nil => exact nofun
  | append_singleton lupgrades v ih =>
    rw [List.foldl_append, List.foldl_cons, List.foldl_nil]
    exact Best.mergeUpgrade ih v t

theorem foldl_mergeUpgrade_eq_some {lupgrades : List LedgerUpgrade} {t : LedgerUpgradeType}
    {u : LedgerUpgrade} :
    lupgrades.foldl mergeUpgrade (fun _ => none) t = some u ↔ IsHighest lupgrades t u := by
  have hbest := best_foldl_mergeUpgrade lupgrades t
  cases hcl : lupgrades.foldl mergeUpgrade (fun _ => none) t with
  | none =>
    rw [hcl] at hbest
    exact iff_of_false nofun fun h => hbest u h.1 h.2.1
  | some v =>
    rw [hcl] at hbest
    constructor
    · intro heq
      exact Option.some.inj heq ▸ hbest
    · intro h
      rw [hbest.unique h]

theorem mem_upgradeList {upgrades : Upgrades} (h : ∀ t u, upgrades t = some u → type u = t)
    {u : LedgerUpgrade} : u ∈ upgradeList upgrades ↔ upgrades (type u) = some u := by
  rw [upgradeList, List.mem_filterMap]
  constructor
  · rintro ⟨t, -, ht⟩
    rw [h t u ht]
    exact ht
  · intro hu
    refine ⟨type u, ?_, hu⟩
    cases type u <;> simp

theorem upgradeList_sorted {upgrades : Upgrades} (h : ∀ t u, upgrades t = some u → type u = t) :
    (upgradeList upgrades).Pairwise fun u v => (type u).code < (type v).code := by
  have hcodes : [LedgerUpgradeType.LEDGER_UPGRADE_VERSION, .LEDGER_UPGRADE_MAX_TX_SET_SIZE].Pairwise
      fun t t' => t.code < t'.code := by decide
  refine hcodes.filterMap upgrades fun t t' hlt u hu v hv => ?_
  rw [h t u hu, h t' v hv]
  exact hlt

/-! ### The transaction set -/

/-- What the choice of a transaction set goes by. -/
def rank (node : Node) (candidatesHash txSetHash : ℕ) : ℕ ×ₗ ℕ :=
  toLex ((node.getTxSet txSetHash).elim 0 (·.mTransactions.length), candidatesHash ^^^ txSetHash)

theorem rank_injective (node : Node) (candidatesHash : ℕ) :
    Function.Injective (rank node candidatesHash) := by
  intro h h' heq
  have hxor := congrArg (fun r => (ofLex r).2) heq
  exact Nat.xor_right_injective hxor

/-- A set that was picked from the values so far. -/
structure Picked (node : Node) (candidatesHash : ℕ) (svs : List StellarValue) (txSet : TxSetFrame)
    (txSetHash : ℕ) : Prop where
  mem : ∃ sv ∈ svs, sv.txSetHash = txSetHash
  known : node.getTxSet txSetHash = some txSet
  highest : ∀ sv ∈ svs, rank node candidatesHash sv.txSetHash ≤ rank node candidatesHash txSetHash

/-- A set that can be picked: it is known and built on the last closed ledger. -/
def Eligible (node : Node) (sv : StellarValue) : Prop :=
  ∃ txSet, node.getTxSet sv.txSetHash = some txSet ∧ txSet.mPreviousLedgerHash = node.lclHash

theorem rank_lt_iff (candidatesHash : ℕ) {h h' : ℕ} {txSet txSet' : TxSetFrame}
    (hknown : node.getTxSet h = some txSet) (hknown' : node.getTxSet h' = some txSet') :
    rank node candidatesHash h < rank node candidatesHash h' ↔
      txSet.mTransactions.length < txSet'.mTransactions.length ∨
        txSet'.mTransactions.length = txSet.mTransactions.length ∧
          lessThanXored h h' candidatesHash = true := by
  simp only [rank, hknown, hknown', Option.elim_some, Prod.Lex.toLex_lt_toLex, lessThanXored,
    decide_eq_true_eq]
  rw [eq_comm]

theorem Picked.pickTxSet {candidatesHash : ℕ} {svs : List StellarValue} {txSet : TxSetFrame}
    {txSetHash : ℕ} (h : Picked node candidatesHash svs txSet txSetHash) {sv : StellarValue}
    (hsv : Eligible node sv) :
    ∃ txSet' txSetHash',
      node.pickTxSet candidatesHash (some (txSet, txSetHash)) sv = some (txSet', txSetHash') ∧
        Picked node candidatesHash (svs ++ [sv]) txSet' txSetHash' := by
  obtain ⟨cTxSet, hknown, hprev⟩ := hsv
  unfold Node.pickTxSet
  simp only [hknown, hprev, ne_eq, not_true_eq_false, if_false]
  have hlt := rank_lt_iff candidatesHash h.known hknown
  split_ifs with hif
  · have hlt := hlt.mpr hif
    refine ⟨cTxSet, sv.txSetHash, rfl, ⟨sv, by simp, rfl⟩, hknown, fun sv' hsv' => ?_⟩
    rcases List.mem_append.mp hsv' with hmem | hmem
    · exact (h.highest sv' hmem).trans hlt.le
    · rw [List.mem_singleton.mp hmem]
  · have hle := not_lt.mp (hlt.not.mpr hif)
    obtain ⟨sv₀, hmem₀, hhash₀⟩ := h.mem
    refine ⟨txSet, txSetHash, rfl, ⟨sv₀, List.mem_append_left _ hmem₀, hhash₀⟩, h.known,
      fun sv' hsv' => ?_⟩
    rcases List.mem_append.mp hsv' with hmem | hmem
    · exact h.highest sv' hmem
    · rw [List.mem_singleton.mp hmem]
      exact hle

/-- **The set that is picked** is the highest of the candidates'. -/
theorem exists_picked (candidatesHash : ℕ) {svs : List StellarValue}
    (h : ∀ sv ∈ svs, Eligible node sv) (hne : svs ≠ []) :
    ∃ txSet txSetHash,
      svs.foldl (node.pickTxSet candidatesHash) none = some (txSet, txSetHash) ∧
        Picked node candidatesHash svs txSet txSetHash := by
  induction svs using List.reverseRecOn with
  | nil => exact absurd rfl hne
  | append_singleton svs sv ih =>
    rw [List.foldl_append, List.foldl_cons, List.foldl_nil]
    have hsv : Eligible node sv := h sv (by simp)
    rcases List.eq_nil_or_concat svs with rfl | ⟨init, last, hsvs⟩
    · obtain ⟨cTxSet, hknown, hprev⟩ := hsv
      refine ⟨cTxSet, sv.txSetHash, ?_, ⟨sv, by simp, rfl⟩, hknown, fun sv' hsv' => ?_⟩
      · simp [pickTxSet, hknown, hprev]
      · rw [List.mem_singleton.mp hsv']
    · have hne : svs ≠ [] := by
        rw [hsvs]
        simp
      obtain ⟨txSet, txSetHash, hfold, hpicked⟩ :=
        ih (fun sv' hsv' => h sv' (List.mem_append_left _ hsv')) hne
      rw [hfold]
      exact hpicked.pickTxSet hsv

end Loop

/-! ## The value -/

section Combined

variable {xdr} {node} {node' : Node} {slotIndex : ℕ} {candidates candidates' : List Value}

/-- No two transactions of a set that the node knows have the same hash. -/
def NoCollisions (node : Node) : Prop :=
  ∀ h txSet, node.getTxSet h = some txSet →
    Set.InjOn node.herder.getFullHash { tx | tx ∈ txSet.mTransactions }

theorem accepted_of_checkValid {txSet : TxSetFrame} (h : node.checkValid txSet = .ok true) :
    txSet.mPreviousLedgerHash = node.lclHash ∧
      Accepted node.herder node.s txSet.mTransactions := by
  unfold checkValid at h
  split_ifs at h with hprev
  · cases h
  · exact ⟨(not_not.mp hprev).symm, Herder.accepted_of_checkValid node.rowsValid h⟩

/-- **The hash of a valid set stays**, when a copy of it is trimmed. -/
theorem trimInvalid_hash {txSet : TxSetFrame} {txSetHash : ℕ}
    (hknown : node.getTxSet txSetHash = some txSet) (hvalid : node.checkValid txSet = .ok true)
    (hcoll : NoCollisions node) :
    ∃ mTransactions trimmed,
      trimInvalid node.herder node.s txSet.mTransactions = .ok (mTransactions, trimmed) ∧
        (getContentsHash node.herder node.contentsHash
          { txSet with mTransactions, mHash := none }).1 = txSetHash := by
  obtain ⟨-, haccepted⟩ := accepted_of_checkValid hvalid
  obtain ⟨trimmed, htrim⟩ := trimInvalid_eq node.rowsValid txSet.mTransactions
  refine ⟨validTxs node.herder node.s txSet.mTransactions, trimmed, htrim, ?_⟩
  have hinj := hcoll _ _ hknown
  obtain ⟨hhash, hcached⟩ := node.stored _ _ hknown
  have hsort : node.herder.std.sort (HashTxSorter node.herder)
      (validTxs node.herder node.s txSet.mTransactions) = txSet.mTransactions :=
    sort_hashTxSorter_eq hinj (pairwise_of_sortedByHash haccepted.sorted).2
      (validTxs_perm haccepted hinj)
  show node.contentsHash txSet.mPreviousLedgerHash (node.herder.std.sort (HashTxSorter node.herder)
    (validTxs node.herder node.s txSet.mTransactions)) = txSetHash
  rw [hsort]
  exact (hcached txSetHash hhash).1.symm

theorem mem_values {sv : StellarValue} :
    sv ∈ values xdr candidates ↔ ∃ c ∈ candidates, xdr.stellarValue.xdrFromOpaque c = some sv :=
  List.mem_filterMap

theorem mem_offered {u : LedgerUpgrade} :
    u ∈ offered xdr candidates ↔ ∃ sv ∈ values xdr candidates, ∃ upgrade ∈ sv.upgrades,
      xdr.ledgerUpgrade.xdrFromOpaque upgrade = some u := by
  simp only [offered, List.mem_flatMap, List.mem_filterMap]

/-- All candidates are fully valid. -/
def AllValid (xdr : Xdr) (node : Node) (slotIndex : ℕ) (candidates : List Value) : Prop :=
  ∀ c ∈ candidates, node.validateValue xdr slotIndex c = .ok .kFullyValidatedValue

theorem AllValid.values (h : AllValid xdr node slotIndex candidates) :
    ∀ sv ∈ values xdr candidates, FullyValid xdr node slotIndex sv := by
  intro sv hsv
  obtain ⟨c, hc, hdecode⟩ := mem_values.mp hsv
  obtain ⟨b, hb, hvalid⟩ := validateValue_iff.mp (h c hc)
  rw [hdecode] at hb
  cases hb
  exact hvalid

theorem AllValid.readable (h : AllValid xdr node slotIndex candidates) :
    ∀ c ∈ candidates, Readable xdr c := by
  intro c hc
  obtain ⟨b, hb, hvalid⟩ := validateValue_iff.mp (h c hc)
  refine ⟨b, hb, fun upgrade hupgrade => ?_⟩
  obtain ⟨lupgrade, hdecode, -⟩ := accepts_of_validateUpgrades hvalid.upgrades upgrade hupgrade
  exact ⟨lupgrade, hdecode⟩

theorem AllValid.values_ne_nil (h : AllValid xdr node slotIndex candidates)
    (hne : candidates ≠ []) : Node.values xdr candidates ≠ [] := by
  obtain ⟨c, hc⟩ := List.exists_mem_of_ne_nil _ hne
  obtain ⟨sv, hsv, -⟩ := h.readable c hc
  exact List.ne_nil_of_mem (mem_values.mpr ⟨c, hc, hsv⟩)

theorem AllValid.eligible (h : AllValid xdr node slotIndex candidates) :
    ∀ sv ∈ Node.values xdr candidates, Eligible node sv := by
  intro sv hsv
  obtain ⟨txSet, hknown, hvalid⟩ := (h.values sv hsv).txSet
  exact ⟨txSet, hknown, (accepted_of_checkValid hvalid).1⟩

/-- The upgrades that are offered are acceptable, and can be written. -/
theorem AllValid.offered (hxdr : xdr.Lawful) (h : AllValid xdr node slotIndex candidates) :
    ∀ u ∈ Node.offered xdr candidates, node.accepts u = true ∧ newValue u < 2 ^ 32 := by
  intro u hu
  obtain ⟨sv, hsv, upgrade, hupgrade, hdecode⟩ := mem_offered.mp hu
  obtain ⟨lupgrade, hdecode', haccepts⟩ :=
    accepts_of_validateUpgrades (h.values sv hsv).upgrades upgrade hupgrade
  rw [hdecode] at hdecode'
  cases hdecode'
  exact ⟨haccepts, hxdr.ledgerUpgrade.fits _ _ hdecode⟩

/-- The highest upgrade of each type, by type. -/
def highestUpgrades (xdr : Xdr) (candidates : List Value) : List LedgerUpgrade :=
  upgradeList ((Node.offered xdr candidates).foldl mergeUpgrade fun _ => none)

theorem mem_highestUpgrades {u : LedgerUpgrade} :
    u ∈ highestUpgrades xdr candidates ↔ IsHighest (Node.offered xdr candidates) (type u) u := by
  rw [highestUpgrades, mem_upgradeList fun t u h => (foldl_mergeUpgrade_eq_some.mp h).2.1,
    foldl_mergeUpgrade_eq_some]

theorem highestUpgrades_sorted (xdr : Xdr) (candidates : List Value) :
    (highestUpgrades xdr candidates).Pairwise fun u v => (type u).code < (type v).code :=
  upgradeList_sorted fun _ _ h => (foldl_mergeUpgrade_eq_some.mp h).2.1

/-- The value that is made of the candidates, with the transaction set that was picked. -/
def combined (xdr : Xdr) (candidates : List Value) (txSetHash : ℕ) : StellarValue where
  txSetHash
  closeTime := (Node.values xdr candidates).foldl (fun t sv => max t sv.closeTime) 0
  upgrades := (highestUpgrades xdr candidates).map xdr.ledgerUpgrade.xdrToOpaque

def xored (node : Node) (candidates : List Value) : ℕ :=
  candidates.foldl (fun h c => h ^^^ node.sha256 c) 0

/-- **What `combineCandidates` returns.** -/
theorem combineCandidates_eq (h : AllValid xdr node slotIndex candidates) (hne : candidates ≠ [])
    (hcoll : NoCollisions node) :
    ∃ txSet txSetHash,
      Picked node (xored node candidates) (Node.values xdr candidates) txSet txSetHash ∧
      node.combineCandidates xdr candidates =
        .ok (xdr.stellarValue.xdrToOpaque (combined xdr candidates txSetHash)) := by
  obtain ⟨txSet, txSetHash, hfold, hpicked⟩ :=
    exists_picked (xored node candidates) h.eligible (h.values_ne_nil hne)
  refine ⟨txSet, txSetHash, hpicked, ?_⟩
  obtain ⟨sv, hsv, rfl⟩ := hpicked.mem
  obtain ⟨txSet', hknown, hvalid⟩ := (h.values sv hsv).txSet
  rw [hpicked.known] at hknown
  cases hknown
  obtain ⟨mTransactions, trimmed, htrim, hhash⟩ := trimInvalid_hash hpicked.known hvalid hcoll
  unfold combineCandidates
  rw [foldlM_addCandidate h.readable]
  show (match (Node.values xdr candidates).foldl (node.pickTxSet (xored node candidates)) none with
    | none => (throw Exit.abort : Except Exit Value)
    | some (bestTxSet, _) => _) = _
  rw [hfold]
  show (trimInvalid node.herder node.s txSet.mTransactions >>= _) = _
  rw [htrim]
  show Except.ok (xdr.stellarValue.xdrToOpaque ⟨(getContentsHash node.herder node.contentsHash
    { txSet with mTransactions, mHash := none }).1, _, _⟩) = _
  rw [hhash]
  rfl

theorem length_highestUpgrades (xdr : Xdr) (candidates : List Value) :
    (highestUpgrades xdr candidates).length ≤ 2 :=
  List.length_filterMap_le _ _

theorem fits_combined (hxdr : xdr.Lawful) (h : AllValid xdr node slotIndex candidates)
    (hne : candidates ≠ []) {txSetHash : ℕ}
    (hmem : ∃ sv ∈ Node.values xdr candidates, sv.txSetHash = txSetHash) :
    (combined xdr candidates txSetHash).Fits := by
  have hfits : ∀ sv ∈ Node.values xdr candidates, sv.Fits := fun sv hsv => by
    obtain ⟨c, -, hdecode⟩ := mem_values.mp hsv
    exact hxdr.stellarValue.fits _ _ hdecode
  obtain ⟨sv, hsv, rfl⟩ := hmem
  obtain ⟨⟨sv', hsv', htime⟩, -⟩ := isGreatest_foldl_max (h.values_ne_nil hne)
  refine ⟨(hfits sv hsv).1, ?_, ?_, fun upgrade hupgrade => ?_⟩
  · rw [combined, ← htime]
    exact (hfits sv' hsv').2.1
  · rw [combined, List.length_map]
    exact (length_highestUpgrades xdr candidates).trans (by decide)
  · obtain ⟨u, -, rfl⟩ := List.mem_map.mp hupgrade
    rw [hxdr.length_upgrade]
    decide

/-- **The value is fully valid.** -/
theorem fullyValid_combined (hxdr : xdr.Lawful) (h : AllValid xdr node slotIndex candidates)
    (hne : candidates ≠ []) {txSetHash : ℕ}
    (hmem : ∃ sv ∈ Node.values xdr candidates, sv.txSetHash = txSetHash) :
    FullyValid xdr node slotIndex (combined xdr candidates txSetHash) := by
  obtain ⟨sv, hsv, rfl⟩ := hmem
  obtain ⟨⟨sv', hsv', htime⟩, -⟩ := isGreatest_foldl_max (h.values_ne_nil hne)
  have hvalid := h.values sv hsv
  have hclose := (h.values sv' hsv').closeTime
  refine ⟨hvalid.compat, ?_, hvalid.txSet, ?_⟩
  · unfold closeTimeValid at hclose ⊢
    rw [htime] at hclose
    exact hclose
  · refine validateUpgrades_of_accepts hxdr (fun u hu => ?_) (highestUpgrades_sorted xdr candidates)
      nofun
    exact h.offered hxdr u (mem_highestUpgrades.mp hu).1

/-! ### Agreement -/

/-- No two sets that the nodes know have the same contents hash. -/
def SetsDistinct (node node' : Node) : Prop :=
  ∀ h h' txSet txSet', node.getTxSet h = some txSet → node'.getTxSet h' = some txSet' →
    node.contentsHash txSet.mPreviousLedgerHash txSet.mTransactions =
      node.contentsHash txSet'.mPreviousLedgerHash txSet'.mTransactions →
    txSet.mTransactions = txSet'.mTransactions

/-- The nodes know the same set under a hash. -/
theorem rank_eq (hhash : node'.contentsHash = node.contentsHash) (hsets : SetsDistinct node node')
    {h : ℕ} {txSet txSet' : TxSetFrame} (hknown : node.getTxSet h = some txSet)
    (hknown' : node'.getTxSet h = some txSet') (candidatesHash : ℕ) :
    rank node' candidatesHash h = rank node candidatesHash h := by
  obtain ⟨hh, hcached⟩ := node.stored _ _ hknown
  obtain ⟨hh', hcached'⟩ := node'.stored _ _ hknown'
  have heq := (hcached h hh).1.symm.trans (hcached' h hh').1
  rw [hhash] at heq
  rw [rank, rank, hknown, hknown', Option.elim_some, Option.elim_some,
    hsets h h txSet txSet' hknown hknown' heq]

theorem picked_unique {x : ℕ} {svs svs' : List StellarValue} {txSet txSet' : TxSetFrame}
    {h h' : ℕ} (hsvs : ∀ sv, sv ∈ svs' ↔ sv ∈ svs)
    (hrank : ∀ sv ∈ svs, rank node' x sv.txSetHash = rank node x sv.txSetHash)
    (hp : Picked node x svs txSet h) (hp' : Picked node' x svs' txSet' h') : h' = h := by
  obtain ⟨sv, hsv, rfl⟩ := hp.mem
  obtain ⟨sv', hsv', rfl⟩ := hp'.mem
  have hle := hp.highest sv' ((hsvs sv').mp hsv')
  have hle' := hp'.highest sv ((hsvs sv).mpr hsv)
  rw [hrank sv hsv, hrank sv' ((hsvs sv').mp hsv')] at hle'
  exact rank_injective node x (le_antisymm hle hle')

theorem isHighest_congr {l l' : List LedgerUpgrade} (hl : ∀ u, u ∈ l' ↔ u ∈ l)
    (t : LedgerUpgradeType) (u : LedgerUpgrade) : IsHighest l' t u ↔ IsHighest l t u := by
  simp only [IsHighest, hl]

theorem combined_congr (hperm : candidates'.Perm candidates) (hne : Node.values xdr candidates ≠ [])
    (txSetHash : ℕ) : combined xdr candidates' txSetHash = combined xdr candidates txSetHash := by
  have hvalues : ∀ sv, sv ∈ Node.values xdr candidates' ↔
      sv ∈ Node.values xdr candidates := fun sv => by
    rw [mem_values, mem_values]
    simp only [hperm.mem_iff]
  have hne' : Node.values xdr candidates' ≠ [] := by
    obtain ⟨sv, hsv⟩ := List.exists_mem_of_ne_nil _ hne
    exact List.ne_nil_of_mem ((hvalues sv).mpr hsv)
  have htime := isGreatest_foldl_max hne'
  simp only [hvalues] at htime
  have hupgrades : highestUpgrades xdr candidates' = highestUpgrades xdr candidates := by
    unfold highestUpgrades
    congr 1
    funext t
    refine Option.ext fun u => ?_
    rw [foldl_mergeUpgrade_eq_some, foldl_mergeUpgrade_eq_some]
    refine isHighest_congr (fun u => ?_) t u
    rw [mem_offered, mem_offered]
    simp only [hvalues]
  rw [combined, combined, hupgrades, htime.unique (isGreatest_foldl_max hne)]

theorem xored_congr (hsha : node'.sha256 = node.sha256) (hperm : candidates'.Perm candidates) :
    xored node' candidates' = xored node candidates := by
  unfold xored
  rw [hsha]
  refine hperm.foldl_eq' (fun c _ c' _ h => ?_) 0
  rw [Nat.xor_assoc, Nat.xor_assoc, Nat.xor_comm (node.sha256 c)]

/-- **Nodes with the same candidates make the same value.** -/
theorem combineCandidates_congr (h : AllValid xdr node slotIndex candidates) (hne : candidates ≠ [])
    (hcoll : NoCollisions node) (hperm : candidates'.Perm candidates)
    (h' : AllValid xdr node' slotIndex candidates') (hcoll' : NoCollisions node')
    (hsha : node'.sha256 = node.sha256) (hhash : node'.contentsHash = node.contentsHash)
    (hsets : SetsDistinct node node') :
    node'.combineCandidates xdr candidates' = node.combineCandidates xdr candidates := by
  have hne' : candidates' ≠ [] := by
    rintro rfl
    exact hne hperm.nil_eq.symm
  obtain ⟨txSet, txSetHash, hpicked, heq⟩ := combineCandidates_eq h hne hcoll
  obtain ⟨txSet', txSetHash', hpicked', heq'⟩ := combineCandidates_eq h' hne' hcoll'
  have hvalues : ∀ sv, sv ∈ Node.values xdr candidates' ↔
      sv ∈ Node.values xdr candidates := fun sv => by
    rw [mem_values, mem_values]
    simp only [hperm.mem_iff]
  rw [xored_congr hsha hperm] at hpicked'
  have hsame : txSetHash' = txSetHash := by
    refine picked_unique hvalues (fun sv hsv => ?_) hpicked hpicked'
    obtain ⟨t, hknown, -⟩ := h.eligible sv hsv
    obtain ⟨t', hknown', -⟩ := h'.eligible sv ((hvalues sv).mpr hsv)
    exact rank_eq hhash hsets hknown hknown' _
  rw [heq, heq', hsame, combined_congr hperm (h.values_ne_nil hne)]

end Combined

/-- **Combining candidates stays valid.** The value has the latest close time, the highest upgrade
of each type in the order of the types, and the transaction set of a candidate. It is the same for
every node that has the same candidates. -/
theorem combineCandidates_valid (xdr : Xdr) (hxdr : xdr.Lawful) (node : Node) (slotIndex : ℕ)
    (candidates : List Value) (hne : candidates ≠ [])
    (hvalid : ∀ c ∈ candidates, node.validateValue xdr slotIndex c = .ok .kFullyValidatedValue)
    (hcoll : NoCollisions node) :
    ∃ value comp, node.combineCandidates xdr candidates = .ok value ∧
      xdr.stellarValue.xdrFromOpaque value = some comp ∧
      node.validateValue xdr slotIndex value = .ok .kFullyValidatedValue ∧
      IsGreatest { t | ∃ sv ∈ values xdr candidates, sv.closeTime = t } comp.closeTime ∧
      (∃ lupgrades : List LedgerUpgrade,
        comp.upgrades = lupgrades.map xdr.ledgerUpgrade.xdrToOpaque ∧
        lupgrades.Pairwise (fun u v => (type u).code < (type v).code) ∧
        ∀ u, u ∈ lupgrades ↔ IsHighest (offered xdr candidates) (type u) u) ∧
      (∃ sv ∈ values xdr candidates, sv.txSetHash = comp.txSetHash) ∧
      (∃ txSet, node.getTxSet comp.txSetHash = some txSet ∧ node.checkValid txSet = .ok true) ∧
      ∀ (node' : Node) (candidates' : List Value), candidates'.Perm candidates →
        (∀ c ∈ candidates', node'.validateValue xdr slotIndex c = .ok .kFullyValidatedValue) →
        NoCollisions node' → node'.sha256 = node.sha256 →
        node'.contentsHash = node.contentsHash → SetsDistinct node node' →
        node'.combineCandidates xdr candidates' = .ok value := by
  have h : AllValid xdr node slotIndex candidates := hvalid
  obtain ⟨txSet, txSetHash, hpicked, heq⟩ := combineCandidates_eq h hne hcoll
  have hfully := fullyValid_combined hxdr h hne hpicked.mem
  have hdecode := hxdr.stellarValue.read _ (fits_combined hxdr h hne hpicked.mem)
  refine ⟨_, combined xdr candidates txSetHash, heq, hdecode,
    validateValue_iff.mpr ⟨_, hdecode, hfully⟩, isGreatest_foldl_max (h.values_ne_nil hne),
    ⟨highestUpgrades xdr candidates, rfl, highestUpgrades_sorted xdr candidates,
      fun u => mem_highestUpgrades⟩, hpicked.mem, hfully.txSet, ?_⟩
  intro node' candidates' hperm h' hcoll' hsha hhash hsets
  rw [← heq]
  exact combineCandidates_congr h hne hcoll hperm h' hcoll' hsha hhash hsets

/-! ## Two nodes with the same candidates -/

/-- The type and the value. -/
def ledgerUpgradeFormat : Format LedgerUpgrade :=
  ((Format.uint 4).seq (.uint 4)).conv
    (fun
      | (1, n) => some (.LEDGER_UPGRADE_VERSION n)
      | (2, n) => some (.LEDGER_UPGRADE_MAX_TX_SET_SIZE n)
      | _ => none)
    (fun u => ((type u).code, newValue u))
    (fun u => by cases u <;> rfl)
    (fun a u h => by
      split at h <;> cases h <;> rfl)

/-- The last field is for future use. -/
def stellarValueFormat : Format StellarValue :=
  ((Format.uint 32).seq ((Format.uint 8).seq ((Format.array 6 (.bytes 128)).seq (.uint 4)))).conv
    (fun
      | (txSetHash, closeTime, upgrades, 0) => some ⟨txSetHash, closeTime, upgrades⟩
      | _ => none)
    (fun b => (b.txSetHash, b.closeTime, b.upgrades, 0))
    (fun _ => rfl)
    (fun a b h => by
      split at h <;> cases h
      rfl)

/-- The two types as the XDR standard has them. -/
def standardXdr : Xdr where
  stellarValue := ⟨stellarValueFormat.xdrToOpaque, stellarValueFormat.xdrFromOpaque⟩
  ledgerUpgrade := ⟨ledgerUpgradeFormat.xdrToOpaque, ledgerUpgradeFormat.xdrFromOpaque⟩

theorem lawful_format {α : Type} {f : Format α} (hf : f.Canonical) {Fits : α → Prop}
    (hfits : ∀ a, Fits a ↔ f.Fits a) :
    (⟨f.xdrToOpaque, f.xdrFromOpaque⟩ : Opaque α).Lawful Fits where
  read a ha := Format.xdrFromOpaque_xdrToOpaque f ((hfits a).mp ha)
  fits _ a h := (hfits a).mpr (Format.fits_of_xdrFromOpaque f h)
  canonical _ _ h := Format.xdrToOpaque_of_xdrFromOpaque hf h

theorem lawful_standardXdr : standardXdr.Lawful where
  stellarValue := by
    refine lawful_format (((Format.canonical_uint 32).seq ((Format.canonical_uint 8).seq
      (((Format.canonical_bytes 128).array 6).seq (Format.canonical_uint 4)))).conv _ _) fun b => ?_
    show _ ↔ b.txSetHash < 256 ^ 32 ∧ b.closeTime < 256 ^ 8 ∧ (b.upgrades.length < 256 ^ 4 ∧
      b.upgrades.length ≤ 6 ∧ ∀ upgrade ∈ b.upgrades, upgrade.length < 256 ^ 4 ∧
        upgrade.length ≤ 128) ∧ 0 < 256 ^ 4
    constructor
    · rintro ⟨hhash, htime, hle, hall⟩
      exact ⟨hhash, htime, ⟨hle.trans_lt (by decide), hle,
        fun upgrade hmem => ⟨(hall upgrade hmem).trans_lt (by decide), hall upgrade hmem⟩⟩,
        by decide⟩
    · rintro ⟨hhash, htime, ⟨-, hle, hall⟩, -⟩
      exact ⟨hhash, htime, hle, fun upgrade hmem => (hall upgrade hmem).2⟩
  ledgerUpgrade := by
    refine lawful_format (((Format.canonical_uint 4).seq (Format.canonical_uint 4)).conv _ _)
      fun u => ?_
    show _ ↔ (type u).code < 256 ^ 4 ∧ newValue u < 256 ^ 4
    refine ⟨fun h => ⟨?_, h⟩, fun h => h.2⟩
    cases u <;> simp [type, LedgerUpgradeType.code]
  length_upgrade u := by
    show (Format.putNat 4 _ ++ Format.putNat 4 _).length = 8
    rw [List.length_append, Format.length_putNat, Format.length_putNat]
  value_ne_nil _ := List.cons_ne_nil _ _

/-- A node that knows a set with one transaction and one with three. -/
def twoSets : Node where
  herder := exampleHerder
  s := threeAccounts
  rowsValid := rowsValid_threeAccounts
  isSynced := true
  lclHash := 0
  lclSeq := 1
  lclCloseTime := 5
  mTrackingSCP := none
  timeNow := 100
  LEDGER_PROTOCOL_VERSION := 2
  DESIRED_MAX_TX_PER_LEDGER := 100
  sha256 := List.length
  contentsHash := sizeHash
  getTxSet h :=
    if h = 1 then some ⟨0, [simpleTx 6 11 100], some 1⟩
    else if h = 3 then some ⟨0, [simpleTx 6 11 100, simpleTx 5 12 100, simpleTx 5 11 100], some 3⟩
    else none
  stored h txSet hknown := by
    split_ifs at hknown with h1 h3
    · obtain rfl := Option.some.inj hknown
      subst h1
      refine ⟨rfl, fun h' hh' => ?_⟩
      obtain rfl := Option.some.inj hh'
      exact ⟨by decide, by decide⟩
    · obtain rfl := Option.some.inj hknown
      subst h3
      refine ⟨rfl, fun h' hh' => ?_⟩
      obtain rfl := Option.some.inj hh'
      exact ⟨by decide, by decide⟩

theorem noCollisions_twoSets : NoCollisions twoSets := by
  have hinj : ∀ txs ∈ [[simpleTx 6 11 100], [simpleTx 6 11 100, simpleTx 5 12 100,
      simpleTx 5 11 100]], ∀ a ∈ txs, ∀ b ∈ txs,
      exampleHerder.getFullHash a = exampleHerder.getFullHash b → a = b := by
    decide
  intro h txSet hknown a ha b hb heq
  simp only [twoSets] at hknown
  split_ifs at hknown with h1 h3
  · obtain rfl := Option.some.inj hknown
    exact hinj _ (by simp) a ha b hb heq
  · obtain rfl := Option.some.inj hknown
    exact hinj _ (by simp) a ha b hb heq

/-- A later value with the smaller set, and one with both upgrades. -/
def twoCandidates : List Value :=
  [standardXdr.stellarValue.xdrToOpaque
      ⟨1, 10, [standardXdr.ledgerUpgrade.xdrToOpaque (.LEDGER_UPGRADE_MAX_TX_SET_SIZE 90)]⟩,
    standardXdr.stellarValue.xdrToOpaque
      ⟨3, 8, [standardXdr.ledgerUpgrade.xdrToOpaque (.LEDGER_UPGRADE_VERSION 2),
        standardXdr.ledgerUpgrade.xdrToOpaque (.LEDGER_UPGRADE_MAX_TX_SET_SIZE 100)]⟩]

theorem combineCandidates_valid_twoCandidates :
    twoSets.combineCandidates standardXdr twoCandidates = .ok (standardXdr.stellarValue.xdrToOpaque
      ⟨3, 10, [standardXdr.ledgerUpgrade.xdrToOpaque (.LEDGER_UPGRADE_VERSION 2),
        standardXdr.ledgerUpgrade.xdrToOpaque (.LEDGER_UPGRADE_MAX_TX_SET_SIZE 100)]⟩) ∧
      ∃ value, twoSets.combineCandidates standardXdr twoCandidates = .ok value ∧
        twoSets.validateValue standardXdr 2 value = .ok .kFullyValidatedValue := by
  obtain ⟨value, -, hvalue, -, hvalid, -⟩ := combineCandidates_valid standardXdr
    lawful_standardXdr twoSets 2 twoCandidates
    (List.cons_ne_nil _ _) (by decide +kernel) noCollisions_twoSets
  exact ⟨by decide +kernel, value, hvalue, hvalid⟩

end Node

end SmartCore.Herder
