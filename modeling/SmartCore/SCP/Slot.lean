import SmartCore.Lib.Code
import SmartCore.SCP.LocalNode

/-!
# A slot and its statements

The state of one slot (the fields of `BallotProtocol` and those of `Slot` that it reads), the
node it runs on, and the functions that look at a single statement: its order
(`isNewerStatement`), its sanity (`isStatementSane`), the validity of its values
(`validateValues`) and what it claims about a ballot.

The driver is a parameter. What a node calls on it is kept in the slot's `log`, together with a
snapshot of the ballot state at each `attemptPreparedConfirmed` and at each
`emitCurrentStateStatement`. No function of the model reads the log, but what the driver answers
can depend on how long it is: the driver can rate a value otherwise each time that it is asked.
-/

namespace SmartCore.SCP

/-! ## Nodes -/

/-- What a driver says about a value. -/
inductive ValidationLevel where
  | kInvalidValue
  | kFullyValidatedValue
  | kMaybeValidValue
deriving DecidableEq, Repr

/-- A node and its driver. The quorum set is sane and known to the driver: the application
refuses to start with another one, and the herder registers it under its hash. What the driver says
about a value depends on when it is asked, that is after how many events. -/
structure Node where
  nodeID : NodeID
  isValidator : Bool
  qSet : SCPQuorumSet
  qSetHash : Hash
  slotIndex : ℕ
  getQSet : Hash → Option SCPQuorumSet
  validateValue : ℕ → Value → ValidationLevel
  signEnvelope : SCPStatement → Signature
  qSet_sane : isQuorumSetSane qSet false = true
  getQSet_qSetHash : getQSet qSetHash = some qSet

/-! ## State -/

/-- The phases of the ballot protocol. -/
inductive Phase where
  | PREPARE
  | CONFIRM
  | EXTERNALIZE
deriving DecidableEq, Repr

/-- Phases are numbered in the order the protocol goes through them. -/
def Phase.toNat : Phase → ℕ
  | PREPARE => 0
  | CONFIRM => 1
  | EXTERNALIZE => 2

/-- The fields of `BallotProtocol`. The two last envelopes are shared pointers that the code
compares; they are compared here by what they point to, which gives the same answer because a
replacement is always a strictly newer statement. -/
structure BallotProtocol where
  mHeardFromQuorum : Bool := true
  mPhase : Phase := .PREPARE
  mCurrentBallot : Option SCPBallot := none
  mPrepared : Option SCPBallot := none
  mPreparedPrime : Option SCPBallot := none
  mHighBallot : Option SCPBallot := none
  mCommit : Option SCPBallot := none
  mLatestEnvelopes : EnvelopeMap := ∅
  mCurrentMessageLevel : ℕ := 0
  mLastEnvelope : Option SCPEnvelope := none
  mLastEnvelopeEmit : Option SCPEnvelope := none

/-- What happened on a slot: the two probes, then the calls to the driver. -/
inductive Event where
  | attemptPreparedConfirmed (bp : BallotProtocol) (hint : SCPStatement)
  | emitCurrentStateStatement (bp : BallotProtocol) (envelope : SCPEnvelope)
  | validateValues (st : SCPStatement)
  | emitEnvelope (envelope : SCPEnvelope)
  | valueExternalized (value : Value)
  | stopNomination
  | setupTimer (counter : Uint32)
  | startedBallotProtocol (ballot : SCPBallot)
  | acceptedBallotPrepared (ballot : SCPBallot)
  | confirmedBallotPrepared (ballot : SCPBallot)
  | acceptedCommit (ballot : SCPBallot)
  | ballotDidHearFromQuorum (ballot : SCPBallot)

/-- A slot. `mLatestCompositeCandidate` is what nomination has come up with so far. -/
structure Slot extends BallotProtocol where
  mFullyValidated : Bool
  mLatestCompositeCandidate : Value := []
  mStatementsHistory : List (SCPStatement × Bool) := []
  log : List Event := []

/-- A slot just constructed. -/
def freshSlot (node : Node) : Slot where
  mFullyValidated := node.isValidator

/-! ## Faults -/

/-- The `dbgAssert`s outside `checkInvariants`. -/
inductive AssertSite where
  | slotIndex
  | bumpAfterCommit
  | bumpBackwards
  | updateBackwards
  | acceptedIncompatible
  | clearCommitAfterPrepare
  | commitAlreadySet
  | commitAboveHigh
deriving DecidableEq, Repr

/-- The pointers the code dereferences without a check of its own. -/
inductive DerefSite where
  | quorumSet
  | timer
  | updateCurrentIfNeeded
  | createStatement
  | attemptPreparedAccept
  | attemptAcceptCommit
  | externalizedCommit
deriving DecidableEq, Repr

/-- How the process can die in the ballot protocol. `checkInvariants` is an assertion of that
function (or the dereference of the null `mHighBallot` it makes when `mCommit` is set);
`badState`, `maxTransitions` and `alreadyStarted` are the exceptions "moved to a bad state (ballot
protocol)", "maximum number of transitions reached in advanceSlot" and "Cannot set state after
starting ballot protocol". -/
inductive Fault where
  | checkInvariants
  | dbgAssert (site : AssertSite)
  | nullDeref (site : DerefSite)
  | badState
  | maxTransitions
  | alreadyStarted
deriving DecidableEq, Repr

/-- Code of a slot. -/
abbrev SlotM := EStateM Fault Slot

/-- The slot with one more event in its log. -/
def Slot.logging (s : Slot) (e : Event) : Slot :=
  { s with log := s.log ++ [e] }

@[simp] theorem Slot.logging_toBallotProtocol (s : Slot) (e : Event) :
    (s.logging e).toBallotProtocol = s.toBallotProtocol := rfl

@[simp] theorem Slot.logging_log (s : Slot) (e : Event) : (s.logging e).log = s.log ++ [e] := rfl

@[simp] theorem Slot.logging_composite (s : Slot) (e : Event) :
    (s.logging e).mLatestCompositeCandidate = s.mLatestCompositeCandidate := rfl

/-- Append to the log. -/
def record (e : Event) : SlotM Unit :=
  modify fun s => s.logging e

/-! ## What a statement says -/

/-- The quorum set hash a statement was made with. -/
def getCompanionQuorumSetHashFromStatement (st : SCPStatement) : Hash :=
  match st.pledges with
  | .prepare p => p.quorumSetHash
  | .confirm c => c.quorumSetHash
  | .externalize e => e.commitQuorumSetHash

/-- The quorum set a statement counts with: a node that externalizes needs nobody any more. -/
def Node.getQuorumSetFromStatement (node : Node) (st : SCPStatement) : Option SCPQuorumSet :=
  match st.pledges with
  | .externalize _ => some (getSingletonQSet st.nodeID)
  | .prepare p => node.getQSet p.quorumSetHash
  | .confirm c => node.getQSet c.quorumSetHash

def getWorkingBallot (st : SCPStatement) : SCPBallot :=
  match st.pledges with
  | .prepare p => p.ballot
  | .confirm c => ⟨c.nCommit, c.ballot.value⟩
  | .externalize e => e.commit

/-- The position of a statement type in `PREPARE < CONFIRM < EXTERNALIZE`. -/
def Pledges.type : Pledges → Phase
  | .prepare _ => .PREPARE
  | .confirm _ => .CONFIRM
  | .externalize _ => .EXTERNALIZE

/-- The order of the statements of one node. -/
def isNewerStatement (oldst st : SCPStatement) : Bool :=
  match oldst.pledges, st.pledges with
  | .prepare oldPrep, .prepare prep =>
    -- lexicographical order between PREPARE statements: (b, p, p', h)
    let compBallot := compareBallots oldPrep.ballot prep.ballot
    if compBallot < 0 then true
    else if compBallot = 0 then
      let compBallot := compareBallotPtrs oldPrep.prepared prep.prepared
      if compBallot < 0 then true
      else if compBallot = 0 then
        let compBallot := compareBallotPtrs oldPrep.preparedPrime prep.preparedPrime
        if compBallot < 0 then true
        else if compBallot = 0 then decide (oldPrep.nH < prep.nH)
        else false
      else false
    else false
  | .confirm oldC, .confirm c =>
    -- sorted by (b, p, p', h) (p' = 0 implicitely)
    let compBallot := compareBallots oldC.ballot c.ballot
    if compBallot < 0 then true
    else if compBallot = 0 then
      if oldC.nPrepared = c.nPrepared then decide (oldC.nH < c.nH)
      else decide (oldC.nPrepared < c.nPrepared)
    else false
  -- can't have duplicate EXTERNALIZE statements
  | .externalize _, .externalize _ => false
  | old, new => decide (old.type.toNat < new.type.toNat)

/-- The overload of `isNewerStatement` against what is recorded for the node. -/
def isNewerStatementFor (map : EnvelopeMap) (nodeID : NodeID) (st : SCPStatement) : Bool :=
  match map[nodeID]? with
  | none => true
  | some old => isNewerStatement old.statement st

/-- The checks of `isStatementSane` on the pledges. -/
def pledgesSane (pledges : Pledges) (self : Bool) : Bool :=
  match pledges with
  | .prepare p =>
    -- self is allowed to have b = 0 (as long as it never gets emitted)
    (self || decide (0 < p.ballot.counter)) &&
    (match p.preparedPrime, p.prepared with
      | some p', some p => areBallotsLessAndIncompatible p' p
      | _, _ => true) &&
    (decide (p.nH = 0) || p.prepared.any fun prepared => decide (p.nH ≤ prepared.counter)) &&
    -- c != 0 -> c <= h <= b
    (decide (p.nC = 0) ||
      decide (p.nH ≠ 0 ∧ p.nH ≤ p.ballot.counter ∧ p.nC ≤ p.nH))
  | .confirm c =>
    -- c <= h <= b
    decide (0 < c.ballot.counter) && decide (c.nH ≤ c.ballot.counter) &&
      decide (c.nCommit ≤ c.nH)
  | .externalize e =>
    decide (0 < e.commit.counter) && decide (e.commit.counter ≤ e.nH)

/-- A statement is sane if its quorum set and its pledges are. -/
def Node.isStatementSane (node : Node) (st : SCPStatement) (self : Bool) : Bool :=
  (node.getQuorumSetFromStatement st).any (fun q => isQuorumSetSane q false) &&
    pledgesSane st.pledges self

/-- The values `validateValues` asks the driver about. -/
def valuesToValidate (st : SCPStatement) : Std.ExtTreeSet Value :=
  match st.pledges with
  | .prepare p =>
    Std.ExtTreeSet.ofList ((if p.ballot.counter ≠ 0 then [p.ballot.value] else []) ++
      (p.prepared.map SCPBallot.value).toList)
  | .confirm c => Std.ExtTreeSet.ofList [c.ballot.value]
  | .externalize e => Std.ExtTreeSet.ofList [e.commit.value]

/-- The loop of `validateValues`: an answer other than "fully validated" replaces the result, so
a later "maybe" hides an earlier "invalid". -/
def Node.validateLoop (node : Node) (n : ℕ) : List Value → ValidationLevel → ValidationLevel
  | [], res => res
  | v :: values, res =>
    match node.validateValue n v with
    | .kFullyValidatedValue => node.validateLoop n values res
    | .kInvalidValue => node.validateLoop n values .kInvalidValue
    | .kMaybeValidValue => node.validateLoop n values .kMaybeValidValue

/-- `validateValues`, after `n` events. -/
def Node.validateValues (node : Node) (n : ℕ) (st : SCPStatement) : ValidationLevel :=
  node.validateLoop n (valuesToValidate st).toList .kFullyValidatedValue

/-- `validateValues` asks the driver about `v`. -/
def AsksAbout (st : SCPStatement) (v : Value) : Prop :=
  v ∈ (valuesToValidate st).toList

/-- Has the node of `st` accepted `ballot` as prepared? -/
def hasPreparedBallot (ballot : SCPBallot) (st : SCPStatement) : Bool :=
  match st.pledges with
  | .prepare p =>
    (p.prepared.any fun prepared => areBallotsLessAndCompatible ballot prepared) ||
    (p.preparedPrime.any fun preparedPrime => areBallotsLessAndCompatible ballot preparedPrime)
  | .confirm c => areBallotsLessAndCompatible ballot ⟨c.nPrepared, c.ballot.value⟩
  | .externalize e => areBallotsCompatible ballot e.commit

/-- Is the node of `st` voting to prepare `ballot`? -/
def votesToPrepare (ballot : SCPBallot) (st : SCPStatement) : Bool :=
  match st.pledges with
  | .prepare p => areBallotsLessAndCompatible ballot p.ballot
  | .confirm c => areBallotsCompatible ballot c.ballot
  | .externalize e => areBallotsCompatible ballot e.commit

/-- A range of counters. -/
abbrev Interval := Uint32 × Uint32

/-- Has the node of `st` accepted to commit `ballot`'s value on every counter of `check`? -/
def commitPredicate (ballot : SCPBallot) (check : Interval) (st : SCPStatement) : Bool :=
  match st.pledges with
  | .prepare _ => false
  | .confirm c =>
    areBallotsCompatible ballot c.ballot &&
      decide (c.nCommit ≤ check.1 ∧ check.2 ≤ c.nH)
  | .externalize e =>
    areBallotsCompatible ballot e.commit && decide (e.commit.counter ≤ check.1)

/-- Is the node of `st` voting to commit `ballot`'s value on every counter of `cur`? -/
def votesToCommit (ballot : SCPBallot) (cur : Interval) (st : SCPStatement) : Bool :=
  match st.pledges with
  | .prepare p =>
    areBallotsCompatible ballot p.ballot && decide (p.nC ≠ 0) &&
      decide (p.nC ≤ cur.1 ∧ cur.2 ≤ p.nH)
  | .confirm c => areBallotsCompatible ballot c.ballot && decide (c.nCommit ≤ cur.1)
  | .externalize e =>
    areBallotsCompatible ballot e.commit && decide (e.commit.counter ≤ cur.1)

/-! ## Federated voting -/

/-- Accept: a v-blocking set accepted it, or a quorum voted for or accepted it. -/
def Node.federatedAccept (node : Node) (voted accepted : SCPStatement → Bool)
    (envs : EnvelopeMap) : Bool :=
  isVBlockingMap node.qSet envs accepted ||
    isQuorum node.qSet envs node.getQuorumSetFromStatement fun st => accepted st || voted st

/-- Ratify: a quorum voted for it. -/
def Node.federatedRatify (node : Node) (voted : SCPStatement → Bool) (envs : EnvelopeMap) :
    Bool :=
  isQuorum node.qSet envs node.getQuorumSetFromStatement voted

section Federated

variable {node : Node} {envs envs' : EnvelopeMap} {voted accepted voted' accepted' :
  SCPStatement → Bool}

/-- More votes in the recorded statements ratify at least as much. -/
theorem federatedRatify_mono
    (h : ∀ (n : NodeID) (env : SCPEnvelope), envs[n]? = some env → voted env.statement = true →
      envs'[n]? = some env ∧ voted' env.statement = true)
    (hr : node.federatedRatify voted envs = true) : node.federatedRatify voted' envs' = true := by
  unfold Node.federatedRatify at hr ⊢
  rw [isQuorum_iff] at hr ⊢
  obtain ⟨U, hU, hs⟩ := hr
  refine ⟨U, fun n hn => ?_, hs⟩
  obtain ⟨env, q, henv, hv, hq, hsl⟩ := hU n hn
  obtain ⟨henv', hv'⟩ := h n env henv hv
  exact ⟨env, q, henv', hv', hq, hsl⟩

theorem federatedAccept_mono
    (ha : ∀ (n : NodeID) (env : SCPEnvelope), envs[n]? = some env →
      accepted env.statement = true → accepted' env.statement = true)
    (hv : ∀ (n : NodeID) (env : SCPEnvelope), envs[n]? = some env → voted env.statement = true →
      (accepted' env.statement || voted' env.statement) = true)
    (h : node.federatedAccept voted accepted envs = true) :
    node.federatedAccept voted' accepted' envs = true := by
  unfold Node.federatedAccept at h ⊢
  rw [Bool.or_eq_true] at h ⊢
  rcases h with h | h
  · left
    refine isVBlocking_mono (fun n hn => ?_) h
    obtain ⟨env, henv, hacc⟩ := mem_filterNodes.mp hn
    exact mem_filterNodes.mpr ⟨env, henv, ha n env henv hacc⟩
  · right
    refine federatedRatify_mono (fun n env henv hor => ⟨henv, ?_⟩) h
    rcases Bool.or_eq_true _ _ |>.mp hor with hacc | hvot
    · simp [ha n env henv hacc]
    · exact hv n env henv hvot

/-- What a quorum has accepted, the node accepts. -/
theorem federatedAccept_of_ratify (h : node.federatedRatify accepted envs = true) :
    node.federatedAccept voted accepted envs = true := by
  unfold Node.federatedAccept
  rw [Bool.or_eq_true]
  right
  exact federatedRatify_mono (fun _ _ henv ha => ⟨henv, by simp [ha]⟩) h

/-- Somebody has voted for or accepted what the node accepts. -/
theorem exists_of_federatedAccept (h : node.federatedAccept voted accepted envs = true) :
    ∃ (n : NodeID) (env : SCPEnvelope), envs[n]? = some env ∧
      (accepted env.statement = true ∨ voted env.statement = true) := by
  unfold Node.federatedAccept at h
  rw [Bool.or_eq_true] at h
  rcases h with h | h
  · obtain ⟨n, hn⟩ := isVBlocking_nonempty h
    obtain ⟨env, henv, ha⟩ := mem_filterNodes.mp hn
    exact ⟨n, env, henv, Or.inl ha⟩
  · obtain ⟨U, hU, hs⟩ := isQuorum_iff.mp h
    obtain ⟨n, hn⟩ := isQuorumSlice_nonempty hs
    obtain ⟨env, q, henv, hor, -⟩ := hU n hn
    exact ⟨n, env, henv, (Bool.or_eq_true _ _).mp hor⟩

end Federated

/-! ## Invariants of the ballot state -/

/-- The assertions of `checkInvariants`, as one Boolean. -/
def checkInvariants (s : BallotProtocol) : Bool :=
  (s.mCurrentBallot.all fun b => decide (b.counter ≠ 0)) &&
  (match s.mPrepared, s.mPreparedPrime with
    | some p, some p' => areBallotsLessAndIncompatible p' p
    | _, _ => true) &&
  (match s.mCommit with
    | none => true
    | some c =>
      match s.mHighBallot, s.mCurrentBallot with
      | some h, some b => areBallotsLessAndCompatible c h && areBallotsLessAndCompatible h b
      | _, _ => false) &&
  (match s.mPhase with
    | .PREPARE => true
    | .CONFIRM => s.mCommit.isSome
    | .EXTERNALIZE => s.mCommit.isSome && s.mHighBallot.isSome)

end SmartCore.SCP
