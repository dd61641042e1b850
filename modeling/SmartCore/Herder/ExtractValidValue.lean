import SmartCore.Herder.CombineCandidates

/-!
# Extracting a valid value

A value that a node does not find valid may still have a transaction set and a close time that it
does. For nomination `extractValidValue` then drops the upgrade steps that the node does not like,
so as to vote for what is left.

`validateValue` does not only ask for acceptable steps: their types have to increase. The steps that
are left over need not do that, since none is dropped for its place, and the value that is extracted
may be invalid like the one it was extracted from.

**Theorem (`extractValidValue_valid_iff`).** What is extracted is fully valid if and only if the
types of the acceptable steps increase, or nothing is extracted.
-/

namespace SmartCore.Herder

open SmartCore.Ledger SmartCore.Transactions TxSetFrame
open SmartCore.SCP (ValidationLevel)
open SmartCore.Transactions.LedgerManager (LedgerUpgrade)

namespace Node

variable (xdr : Xdr) (node : Node)

/-- Remove the upgrade steps we don't like. -/
def extractValidValue (slotIndex : ℕ) (value : Value) : Except Exit Value := do
  match xdr.stellarValue.xdrFromOpaque value with
  | none => return []
  | some b =>
    if (← node.validateValueHelper slotIndex b) = .kFullyValidatedValue then
      let upgrades := b.upgrades.filter fun upgrade => (node.validateUpgradeStep xdr upgrade).isSome
      return xdr.stellarValue.xdrToOpaque { b with upgrades }
    else return []

/-- The types of the steps that are acceptable increase. -/
def Increasing (upgrades : List UpgradeType) : Prop :=
  (upgrades.filterMap (node.validateUpgradeStep xdr)).Pairwise fun t t' => t.code < t'.code

instance (upgrades : List UpgradeType) : Decidable (node.Increasing xdr upgrades) :=
  inferInstanceAs (Decidable (List.Pairwise _ _))

variable {xdr} {node} {slotIndex : ℕ} {b : StellarValue} {value : Value}

/-! ## The steps of a value -/

/-- The two checks of a step, for all steps at once. -/
theorem validateUpgrades_iff {last : Option LedgerUpgradeType} {upgrades : List UpgradeType} :
    node.validateUpgrades xdr last upgrades = true ↔
      (∀ upgrade ∈ upgrades, (node.validateUpgradeStep xdr upgrade).isSome) ∧
        node.Increasing xdr upgrades ∧
          ∀ t ∈ last, ∀ t' ∈ upgrades.filterMap (node.validateUpgradeStep xdr),
            t.code < t'.code := by
  unfold Increasing
  induction upgrades generalizing last with
  | nil => simp [validateUpgrades]
  | cons upgrade upgrades ih =>
    unfold validateUpgrades
    cases hstep : node.validateUpgradeStep xdr upgrade with
    | none => simp [hstep]
    | some t =>
      have hlast : (last.all fun l => l.code < t.code) = true ↔ ∀ l ∈ last, l.code < t.code := by
        cases last <;> simp
      rw [List.filterMap_cons_some hstep, List.pairwise_cons, List.forall_mem_cons, hstep,
        Bool.and_eq_true, hlast, ih]
      simp only [Option.isSome_some, true_and, Option.mem_some_iff, List.forall_mem_cons]
      constructor
      · rintro ⟨hlt, hall, hsorted, hfirst⟩
        have hfirst := hfirst t rfl
        exact ⟨hall, ⟨hfirst, hsorted⟩,
          fun l hl => ⟨hlt l hl, fun t' ht' => (hlt l hl).trans (hfirst t' ht')⟩⟩
      · rintro ⟨hall, ⟨hfirst, hsorted⟩, hlt⟩
        exact ⟨fun l hl => (hlt l hl).1, hall, hsorted, fun l hl => hl ▸ hfirst⟩

theorem filterMap_filter_isSome (upgrades : List UpgradeType) :
    (upgrades.filter fun upgrade => (node.validateUpgradeStep xdr upgrade).isSome).filterMap
        (node.validateUpgradeStep xdr) = upgrades.filterMap (node.validateUpgradeStep xdr) := by
  rw [List.filterMap_filter]
  congr 1
  funext upgrade
  cases node.validateUpgradeStep xdr upgrade <;> rfl

/-- The steps that are left are valid, if their types increase. -/
theorem validateUpgrades_filter_iff (upgrades : List UpgradeType) :
    node.validateUpgrades xdr none
        (upgrades.filter fun upgrade => (node.validateUpgradeStep xdr upgrade).isSome) = true ↔
      node.Increasing xdr upgrades := by
  rw [validateUpgrades_iff]
  unfold Increasing
  rw [filterMap_filter_isSome]
  constructor
  · exact fun h => h.2.1
  · intro h
    exact ⟨fun upgrade hmem => (List.mem_filter.mp hmem).2, h, nofun⟩

/-! ## What is extracted -/

theorem extractValidValue_none (h : xdr.stellarValue.xdrFromOpaque value = none) :
    node.extractValidValue xdr slotIndex value = .ok [] := by
  unfold extractValidValue
  rw [h]
  rfl

theorem extractValidValue_some (h : xdr.stellarValue.xdrFromOpaque value = some b)
    {level : ValidationLevel} (hlevel : node.validateValueHelper slotIndex b = .ok level) :
    node.extractValidValue xdr slotIndex value = .ok
      (if level = .kFullyValidatedValue then
        xdr.stellarValue.xdrToOpaque { b with
          upgrades := b.upgrades.filter fun upgrade =>
            (node.validateUpgradeStep xdr upgrade).isSome }
      else []) := by
  unfold extractValidValue
  rw [h]
  show (node.validateValueHelper slotIndex b >>= _) = _
  rw [hlevel]
  show (if level = .kFullyValidatedValue then _ else _) = _
  split_ifs <;> rfl

/-- Fewer steps fit where all of them do. -/
theorem fits_filter (h : b.Fits) (p : UpgradeType → Bool) :
    StellarValue.Fits { b with upgrades := b.upgrades.filter p } := by
  obtain ⟨hhash, htime, hle, hall⟩ := h
  exact ⟨hhash, htime, (List.length_filter_le _ _).trans hle,
    fun upgrade hmem => hall upgrade (List.mem_filter.mp hmem).1⟩

theorem validateValueHelper_upgrades (slotIndex : ℕ) (b : StellarValue)
    (upgrades : List UpgradeType) :
    node.validateValueHelper slotIndex { b with upgrades } =
      node.validateValueHelper slotIndex b := rfl

/-- Whether the checks apart from the steps' are passed, and those of the steps. -/
theorem validateValue_some_iff (h : xdr.stellarValue.xdrFromOpaque value = some b) :
    node.validateValue xdr slotIndex value = .ok .kFullyValidatedValue ↔
      node.validateValueHelper slotIndex b = .ok .kFullyValidatedValue ∧
        node.validateUpgrades xdr none b.upgrades = true := by
  rw [validateValue_iff, validateValueHelper_iff, h]
  constructor
  · rintro ⟨b', heq, hvalid⟩
    obtain rfl := Option.some.inj heq
    exact ⟨⟨hvalid.compat, hvalid.closeTime, hvalid.txSet⟩, hvalid.upgrades⟩
  · rintro ⟨⟨hcompat, hclose, htxSet⟩, hupgrades⟩
    exact ⟨b, rfl, hcompat, hclose, htxSet, hupgrades⟩

/-- The value that is extracted is valid, if the types of its steps increase. -/
theorem validateValue_extracted_iff (hxdr : xdr.Lawful)
    (h : xdr.stellarValue.xdrFromOpaque value = some b)
    (hlevel : node.validateValueHelper slotIndex b = .ok .kFullyValidatedValue) :
    node.validateValue xdr slotIndex (xdr.stellarValue.xdrToOpaque { b with
        upgrades := b.upgrades.filter fun upgrade =>
          (node.validateUpgradeStep xdr upgrade).isSome }) =
      .ok .kFullyValidatedValue ↔ node.Increasing xdr b.upgrades := by
  have hdecode := hxdr.stellarValue.read _
    (fits_filter (hxdr.stellarValue.fits _ _ h)
      fun upgrade => (node.validateUpgradeStep xdr upgrade).isSome)
  rw [validateValue_some_iff hdecode, validateUpgrades_filter_iff, validateValueHelper_upgrades]
  exact and_iff_right hlevel

/-- What is valid is extracted as it is. -/
theorem extractValidValue_of_valid (hxdr : xdr.Lawful)
    (h : node.validateValue xdr slotIndex value = .ok .kFullyValidatedValue) :
    node.extractValidValue xdr slotIndex value = .ok value := by
  obtain ⟨b, hdecode, -⟩ := validateValue_iff.mp h
  obtain ⟨hlevel, hupgrades⟩ := (validateValue_some_iff hdecode).mp h
  have hall := (validateUpgrades_iff.mp hupgrades).1
  rw [extractValidValue_some hdecode hlevel, if_pos rfl, List.filter_eq_self.mpr hall]
  exact congrArg Except.ok (hxdr.stellarValue.canonical _ _ hdecode)

/-! ## It always returns -/

theorem checkLoop_isOk {herder : HerderImpl} {s : LedgerState} (h : RowsValid s) (txs : List Tx)
    (acc : AccountTxs) : ∃ valid, checkLoop herder s txs acc = .ok valid := by
  induction txs generalizing acc with
  | nil => exact ⟨_, rfl⟩
  | cons tx txs ih =>
    unfold checkLoop
    by_cases hvalid : isValid herder s tx acc.lastSeq = true
    · obtain ⟨a, hcheck, -⟩ := checkTx_of_isValid h hvalid
      rw [hcheck]
      exact ih _
    · rw [checkTx_of_not_isValid h hvalid]
      exact ⟨false, rfl⟩

theorem checkAccounts_isOk {herder : HerderImpl} {s : LedgerState} (h : RowsValid s)
    (txs : List Tx) (ids : List AccountID) :
    ∃ valid, checkAccounts herder s txs ids = .ok valid := by
  induction ids with
  | nil => exact ⟨_, rfl⟩
  | cons id ids ih =>
    unfold checkAccounts
    obtain ⟨valid, hloop⟩ := checkLoop_isOk h (herder.std.sort SeqSorter (txsOf txs id)) {}
    rw [hloop]
    cases valid with
    | true => exact ih
    | false => exact ⟨false, rfl⟩

theorem checkValid_isOk (txSet : TxSetFrame) : ∃ valid, node.checkValid txSet = .ok valid := by
  unfold checkValid Herder.checkValid
  split_ifs
  · exact ⟨_, rfl⟩
  · exact ⟨_, rfl⟩
  · exact ⟨_, rfl⟩
  · exact checkAccounts_isOk node.rowsValid _ _

theorem validateTxSet_isOk (txSetHash : ℕ) :
    ∃ level, node.validateTxSet txSetHash = .ok level := by
  unfold validateTxSet
  cases node.getTxSet txSetHash with
  | none => exact ⟨_, rfl⟩
  | some txSet =>
    have hcheck : ∃ valid, node.checkValid txSet = .ok valid := checkValid_isOk txSet
    obtain ⟨valid, hvalid⟩ := hcheck
    dsimp only
    rw [hvalid]
    cases valid <;> exact ⟨_, rfl⟩

/-- The number of the ledger that is tracked is asserted to be one. -/
theorem validateValueHelper_isOk
    (htracking : ∀ tracking ∈ node.mTrackingSCP, tracking.mConsensusIndex < 2 ^ 32)
    (slotIndex : ℕ) (b : StellarValue) :
    ∃ level, node.validateValueHelper slotIndex b = .ok level := by
  unfold validateValueHelper
  split_ifs
  · exact validateTxSet_isOk b.txSetHash
  · exact ⟨_, rfl⟩
  · split
    · exact ⟨_, rfl⟩
    · rename_i tracking heq
      rw [if_neg (not_le.mpr (htracking tracking heq))]
      dsimp only
      split_ifs <;> exact ⟨_, rfl⟩

theorem extractValidValue_isOk
    (htracking : ∀ tracking ∈ node.mTrackingSCP, tracking.mConsensusIndex < 2 ^ 32)
    (slotIndex : ℕ) (value : Value) :
    ∃ res, node.extractValidValue xdr slotIndex value = .ok res := by
  cases hdecode : xdr.stellarValue.xdrFromOpaque value with
  | none => exact ⟨_, extractValidValue_none hdecode⟩
  | some b =>
    obtain ⟨level, hlevel⟩ := validateValueHelper_isOk htracking slotIndex b
    exact ⟨_, extractValidValue_some hdecode hlevel⟩

/-! ## Main result -/

/-- What is meant by extracting a valid value: what is returned is empty or valid, and a value that
is valid is returned. -/
structure ExtractsValid (xdr : Xdr) (node : Node) (slotIndex : ℕ) (value : Value) : Prop where
  valid : ∀ res, node.extractValidValue xdr slotIndex value = .ok res →
    res = [] ∨ node.validateValue xdr slotIndex res = .ok .kFullyValidatedValue
  unchanged : node.validateValue xdr slotIndex value = .ok .kFullyValidatedValue →
    node.extractValidValue xdr slotIndex value = .ok value

/-- **Main theorem.** A value is extracted as it should be, unless it is fully valid apart from its
steps and the types of those that are acceptable do not increase. -/
theorem extractValidValue_valid_iff (xdr : Xdr) (hxdr : xdr.Lawful) (node : Node)
    (htracking : ∀ tracking ∈ node.mTrackingSCP, tracking.mConsensusIndex < 2 ^ 32)
    (slotIndex : ℕ) (value : Value) :
    (∃ res, node.extractValidValue xdr slotIndex value = .ok res) ∧
    (ExtractsValid xdr node slotIndex value ↔
      ∀ b, xdr.stellarValue.xdrFromOpaque value = some b →
        node.validateValueHelper slotIndex b = .ok .kFullyValidatedValue →
          node.Increasing xdr b.upgrades) := by
  refine ⟨extractValidValue_isOk htracking slotIndex value, ?_⟩
  constructor
  · intro hextracts b hdecode hlevel
    have hres := extractValidValue_some hdecode hlevel
    rw [if_pos rfl] at hres
    rcases hextracts.valid _ hres with hnil | hvalid
    · exact absurd hnil (hxdr.value_ne_nil _)
    · exact (validateValue_extracted_iff hxdr hdecode hlevel).mp hvalid
  · intro hincreasing
    refine ⟨fun res hres => ?_, extractValidValue_of_valid hxdr⟩
    cases hdecode : xdr.stellarValue.xdrFromOpaque value with
    | none =>
      rw [extractValidValue_none hdecode] at hres
      exact Or.inl (Except.ok.inj hres).symm
    | some b =>
      obtain ⟨level, hlevel⟩ := validateValueHelper_isOk htracking slotIndex b
      rw [extractValidValue_some hdecode hlevel] at hres
      obtain rfl := Except.ok.inj hres
      by_cases hfull : level = .kFullyValidatedValue
      · subst hfull
        rw [if_pos rfl]
        exact Or.inr ((validateValue_extracted_iff hxdr hdecode hlevel).mpr
          (hincreasing b hdecode hlevel))
      · exact Or.inl (if_neg hfull)

/-- An acceptable set and time, with upgrades that are acceptable one by one. -/
def withUpgrades (upgrades : List LedgerUpgrade) : Value :=
  standardXdr.stellarValue.xdrToOpaque ⟨1, 10, upgrades.map standardXdr.ledgerUpgrade.xdrToOpaque⟩

/-- A step that is not acceptable is dropped. -/
theorem extractValidValue_valid_dropped :
    twoSets.validateValue standardXdr 2 (withUpgrades [.LEDGER_UPGRADE_VERSION 2,
      .LEDGER_UPGRADE_MAX_TX_SET_SIZE 1000]) = .ok .kInvalidValue ∧
    ExtractsValid standardXdr twoSets 2 (withUpgrades [.LEDGER_UPGRADE_VERSION 2,
      .LEDGER_UPGRADE_MAX_TX_SET_SIZE 1000]) := by
  refine ⟨by decide +kernel, (extractValidValue_valid_iff standardXdr lawful_standardXdr twoSets
    nofun 2 _).2.mpr ?_⟩
  intro b hdecode _
  have hb : standardXdr.stellarValue.xdrFromOpaque (withUpgrades [.LEDGER_UPGRADE_VERSION 2,
      .LEDGER_UPGRADE_MAX_TX_SET_SIZE 1000]) = some ⟨1, 10,
        [.LEDGER_UPGRADE_VERSION 2, .LEDGER_UPGRADE_MAX_TX_SET_SIZE 1000].map
          standardXdr.ledgerUpgrade.xdrToOpaque⟩ := by
    decide +kernel
  rw [hb] at hdecode
  obtain rfl := Option.some.inj hdecode
  decide +kernel

/-- Two acceptable steps of one type are both left, and what is extracted is not valid. -/
theorem extractValidValue_repeated :
    twoSets.extractValidValue standardXdr 2 (withUpgrades [.LEDGER_UPGRADE_VERSION 2,
      .LEDGER_UPGRADE_VERSION 2]) = .ok (withUpgrades [.LEDGER_UPGRADE_VERSION 2,
        .LEDGER_UPGRADE_VERSION 2]) ∧
    twoSets.validateValue standardXdr 2 (withUpgrades [.LEDGER_UPGRADE_VERSION 2,
      .LEDGER_UPGRADE_VERSION 2]) = .ok .kInvalidValue ∧
    ¬ ExtractsValid standardXdr twoSets 2 (withUpgrades [.LEDGER_UPGRADE_VERSION 2,
      .LEDGER_UPGRADE_VERSION 2]) := by
  have hextract : twoSets.extractValidValue standardXdr 2 (withUpgrades [.LEDGER_UPGRADE_VERSION 2,
      .LEDGER_UPGRADE_VERSION 2]) = .ok (withUpgrades [.LEDGER_UPGRADE_VERSION 2,
        .LEDGER_UPGRADE_VERSION 2]) := by
    decide +kernel
  have hinvalid : twoSets.validateValue standardXdr 2 (withUpgrades [.LEDGER_UPGRADE_VERSION 2,
      .LEDGER_UPGRADE_VERSION 2]) = .ok .kInvalidValue := by
    decide +kernel
  refine ⟨hextract, hinvalid, fun hextracts => ?_⟩
  rcases hextracts.valid _ hextract with hnil | hvalid
  · exact absurd hnil (lawful_standardXdr.value_ne_nil _)
  · rw [hinvalid] at hvalid
    cases hvalid

end Node

end SmartCore.Herder
