import SmartCore.SCP.Nomination

/-!
# The state a peer asks for

A peer asks for the SCP state of a ledger, or, with zero, for that of the most recent ones. The loop over
the slots counts in 32 bits and has an inclusive bound: with the largest number as its bound it never
ends (`sendsState_iff`).
-/

namespace SmartCore.Herder

open SmartCore.SCP

/-! ## The state of SCP -/

inductive SCPMessage where
  | nominate (envelope : Nomination.Envelope)
  | ballot (envelope : SCPEnvelope)
deriving DecidableEq, Repr

/-- What `getCurrentState` reads of a slot. -/
structure KnownSlot where
  mLatestNominations : Std.ExtTreeMap NodeID Nomination.Envelope := ∅
  mLatestEnvelopes : EnvelopeMap := ∅
  mFullyValidated : Bool := false

/-- Only return messages for self if the slot is fully validated. -/
def KnownSlot.getCurrentState (localNodeID : NodeID) (slot : KnownSlot) : List SCPMessage :=
  let returned (n : NodeID) : Bool := n ≠ localNodeID ∨ slot.mFullyValidated
  (slot.mLatestNominations.toList.filter fun n => returned n.1).map (fun n => .nominate n.2) ++
    (slot.mLatestEnvelopes.toList.filter fun n => returned n.1).map fun n => .ballot n.2

structure KnownSlots where
  localNodeID : NodeID
  mKnownSlots : Std.ExtTreeMap ℕ KnownSlot

/-- No slot is made for a number that is not known. -/
def KnownSlots.getCurrentState (scp : KnownSlots) (slotIndex : ℕ) : List SCPMessage :=
  match scp.mKnownSlots[slotIndex]? with
  | some slot => slot.getCurrentState scp.localNodeID
  | none => []

/-! ## The answer -/

/-- `minSeq` and `maxSeq`. -/
def seqRange (currentLedgerSeq ledgerSeq : Uint32) : Uint32 × Uint32 :=
  if ledgerSeq = 0 then
    let nbLedgers : Uint32 := 3
    let minLedger : Uint32 := 2
    -- include the most recent slot
    let maxSeq := currentLedgerSeq + 1
    if minLedger + nbLedgers ≤ maxSeq then (maxSeq - nbLedgers, maxSeq) else (minLedger, maxSeq)
  else (ledgerSeq, ledgerSeq)

variable (scp : KnownSlots)

/-- The messages that are sent, if the loop ends within so many rounds. -/
def sendLoop (maxSeq : Uint32) : ℕ → Uint32 → Option (List SCPMessage)
  | 0, _ => none
  | n + 1, seq =>
    if seq ≤ maxSeq then
      (sendLoop maxSeq n (seq + 1)).map (scp.getCurrentState seq.val ++ ·)
    else some []

def sendSCPStateToPeer (currentLedgerSeq : Uint32) (rounds : ℕ) (ledgerSeq : Uint32) :
    Option (List SCPMessage) :=
  let range := seqRange currentLedgerSeq ledgerSeq
  sendLoop scp range.2 rounds range.1

/-- The loop ends, and has sent the state of each slot of the range once. -/
def SendsState (currentLedgerSeq ledgerSeq : Uint32) : Prop :=
  let range := seqRange currentLedgerSeq ledgerSeq
  ∃ rounds, sendSCPStateToPeer scp currentLedgerSeq rounds ledgerSeq =
    some ((List.range' range.1.val (range.2.val + 1 - range.1.val)).flatMap scp.getCurrentState)

variable {scp} {seq maxSeq : Uint32}

/-- Below the largest number, a round leads to the next slot. -/
theorem sendLoop_of_lt (h : maxSeq ≠ UINT32_MAX) :
    sendLoop scp maxSeq (maxSeq.val + 1 - seq.val + 1) seq =
      some ((List.range' seq.val (maxSeq.val + 1 - seq.val)).flatMap scp.getCurrentState) := by
  have hmax : maxSeq.val + 1 < 2 ^ 32 := by
    have hlt := Fin.lt_last_iff_ne_last.mpr h
    rw [Fin.lt_def, Fin.val_last] at hlt
    omega
  generalize hn : maxSeq.val + 1 - seq.val = n
  induction n generalizing seq with
  | zero =>
    have hgt : ¬ seq ≤ maxSeq := by
      rw [Fin.le_def]
      omega
    rw [sendLoop, if_neg hgt]
    rfl
  | succ n ih =>
    have hle : seq ≤ maxSeq := by
      rw [Fin.le_def]
      omega
    have hsucc : (seq + 1).val = seq.val + 1 := by
      rw [Fin.val_add, Fin.val_one, Nat.mod_eq_of_lt]
      omega
    rw [sendLoop, if_pos hle, ih (by omega), hsucc, List.range'_succ, List.flatMap_cons]
    rfl

/-- No number is beyond the largest. -/
theorem sendLoop_max (n : ℕ) : sendLoop scp UINT32_MAX n seq = none := by
  induction n generalizing seq with
  | zero => rfl
  | succ n ih =>
    have hle : seq ≤ UINT32_MAX := Fin.le_last seq
    rw [sendLoop, if_pos hle, ih, Option.map_none]

/-- **A request is answered** just if it is not for the largest number, nor for the most recent slots
when the largest number is next. -/
theorem sendsState_iff (scp : KnownSlots) (currentLedgerSeq ledgerSeq : Uint32) :
    SendsState scp currentLedgerSeq ledgerSeq ↔
      ledgerSeq ≠ UINT32_MAX ∧ (ledgerSeq = 0 → currentLedgerSeq + 1 ≠ UINT32_MAX) := by
  have hmax : (seqRange currentLedgerSeq ledgerSeq).2 ≠ UINT32_MAX ↔
      ledgerSeq ≠ UINT32_MAX ∧ (ledgerSeq = 0 → currentLedgerSeq + 1 ≠ UINT32_MAX) := by
    unfold seqRange
    by_cases h0 : ledgerSeq = 0
    · have hne : (0 : Uint32) ≠ UINT32_MAX := by decide
      subst h0
      dsimp only
      rw [if_pos rfl]
      split_ifs <;> simp [hne]
    · simp [h0]
  rw [← hmax]
  unfold SendsState sendSCPStateToPeer
  dsimp only
  generalize seqRange currentLedgerSeq ledgerSeq = range
  constructor
  · rintro ⟨rounds, hsent⟩ hlast
    rw [hlast, sendLoop_max] at hsent
    cases hsent
  · exact fun hne => ⟨_, sendLoop_of_lt hne⟩

/-- A request for the largest number is never answered. -/
theorem sendsState_largest :
    (∀ rounds, sendSCPStateToPeer ⟨3, ∅⟩ 7 rounds UINT32_MAX = none) ∧
      ¬ SendsState ⟨3, ∅⟩ 7 UINT32_MAX := by
  have hrange : seqRange 7 UINT32_MAX = (UINT32_MAX, UINT32_MAX) := by decide
  have hnone (rounds : ℕ) : sendSCPStateToPeer ⟨3, ∅⟩ 7 rounds UINT32_MAX = none := by
    unfold sendSCPStateToPeer
    rw [hrange]
    exact sendLoop_max rounds
  refine ⟨hnone, ?_⟩
  unfold SendsState
  rw [hrange]
  rintro ⟨rounds, hsent⟩
  rw [hnone] at hsent
  cases hsent

end SmartCore.Herder
