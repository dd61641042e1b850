import Mathlib.Data.List.Sort
import SmartCore.SCP.Slot

/-!
# The nomination protocol

Before the ballots, the nodes agree on values to vote on. A node has the values that it votes for, the
ones that it has accepted and the candidates. All three come from the statements of others by
federated voting. Whenever one of the first two grows, the node makes a statement of its own and
processes it like any other, inside of what it was doing; that may make it grow again.

**Theorem (`nomination_sound`).** In every run every candidate is accepted and every accepted value is
voted for, the three sets only grow, every statement that the node emits is sane and newer than the
one before, and the exception "moved to a bad state (nomination)" is never thrown.

The last one holds because a statement is made only after a set has grown, and lists the sets in full.

The driver may answer differently each time it is asked. Its answers, and what the ballot protocol
does when it is given a candidate, are functions of the number of questions asked before. The
recursion is bounded by `fuel`, as the stack bounds it; every statement holds for every bound.
-/

namespace SmartCore.SCP.Nomination

/-! ## Statements -/

/-- A `NOMINATE` statement of a node. -/
structure SCPNomination where
  quorumSetHash : Hash
  votes : List Value
  accepted : List Value
deriving DecidableEq, Repr

structure Statement where
  nodeID : NodeID
  slotIndex : ℕ
  nominate : SCPNomination
deriving DecidableEq, Repr

structure Envelope where
  statement : Statement
  signature : Signature
deriving DecidableEq, Repr

/-- `std::includes`, of sorted ranges. -/
def includes : List Value → List Value → Bool
  | _, [] => true
  | [], _ :: _ => false
  | a :: v, b :: p => if b < a then false else if a < b then includes v (b :: p) else includes v p

/-- Whether `p` is a subset of `v`, and whether they differ. -/
def isSubsetHelper (p v : List Value) : Bool × Bool :=
  if p.length ≤ v.length then
    if includes v p then (true, p.length ≠ v.length) else (false, true)
  else (false, true)

def isNewerStatement (oldst st : SCPNomination) : Bool :=
  let (subset, grows) := isSubsetHelper oldst.votes st.votes
  if subset then
    let (subset, g) := isSubsetHelper oldst.accepted st.accepted
    if subset then grows || g else false
  else false

/-! ## State -/

/-- A `std::set`. -/
abbrev SortedSet (κ : Type) [LinearOrder κ] := Std.ExtTreeSet κ

abbrev ValueSet := SortedSet Value

/-- The fields of `NominationProtocol`, and those of the slot that it reads. -/
structure State where
  mRoundNumber : ℕ := 0
  mVotes : ValueSet := ∅
  mAccepted : ValueSet := ∅
  mCandidates : ValueSet := ∅
  mLatestNominations : Std.ExtTreeMap NodeID Envelope := ∅
  mLastEnvelope : Option Envelope := none
  mRoundLeaders : List NodeID := []
  mNominationStarted : Bool := false
  mLatestCompositeCandidate : Value := []
  mPreviousValue : Value := []
  mFullyValidated : Bool
  /-- the number of questions asked so far -/
  asked : ℕ := 0
  /-- what was emitted: no code reads it -/
  emitted : List Envelope := []

inductive Fault where
  /-- "moved to a bad state (nomination)" -/
  | badState
  /-- "Cannot set state after nomination is started" -/
  | alreadyStarted
  /-- the quorum set of a statement is not known -/
  | nullDeref
  /-- `dbgAssert(!mPreviousValue.empty())` -/
  | dbgAssert
  | stackOverflow
deriving DecidableEq, Repr

abbrev NominationM := EStateM Fault State

/-- What a node has beyond its ballot protocol: the answers of its driver. -/
structure Driver where
  validateValue : ℕ → Value → ValidationLevel
  extractValidValue : ℕ → Value → Value
  computeHashNode : Value → Bool → ℕ → NodeID → ℕ
  computeValueHash : Value → ℕ → Value → ℕ
  combineCandidates : ℕ → ValueSet → Value
  signEnvelope : Statement → Signature
  /-- `bumpState`: whether the ballot protocol stops nomination, and what it makes of
  `mFullyValidated` -/
  bumpState : ℕ → Value → Bool × Bool

variable (node : Node) (driver : Driver)

/-- Asks the driver. -/
def ask {α : Type} (question : ℕ → α) : NominationM α := do
  let s ← get
  set { s with asked := s.asked + 1 }
  return question s.asked

/-! ## Quorums -/

/-- The nodes whose statement passes the filter. -/
def filterNodes (map : Std.ExtTreeMap NodeID Envelope) (filter : SCPNomination → Bool) :
    List NodeID :=
  (map.toList.filter fun it => filter it.2.statement.nominate).map Prod.fst

/-- Does the quorum set of the node have a slice among `pNodes`? -/
def quorumFilter (map : Std.ExtTreeMap NodeID Envelope) (pNodes : List NodeID) (nodeID : NodeID) :
    Bool :=
  ((map[nodeID]?).bind fun env => node.getQSet env.statement.nominate.quorumSetHash).any
    fun q => isQuorumSlice q pNodes

def isQuorum (map : Std.ExtTreeMap NodeID Envelope) (filter : SCPNomination → Bool) : Bool :=
  let pNodes := filterNodes map filter
  isQuorumSlice node.qSet (shrink (quorumFilter node map) (pNodes.length + 1) pNodes)

def federatedAccept (voted accepted : SCPNomination → Bool)
    (envs : Std.ExtTreeMap NodeID Envelope) : Bool :=
  isVBlocking node.qSet (filterNodes envs accepted) ||
    isQuorum node envs fun nom => accepted nom || voted nom

def federatedRatify (voted : SCPNomination → Bool) (envs : Std.ExtTreeMap NodeID Envelope) : Bool :=
  isQuorum node envs voted

/-! ## Leaders -/

mutual

/-- The nodes of a quorum set, in the order of `forAllNodesInternal`. -/
def allNodes : SCPQuorumSet → List NodeID
  | .mk _ validators innerSets => validators ++ allInnerNodes innerSets

def allInnerNodes : List SCPQuorumSet → List NodeID
  | [] => []
  | q :: qs => allNodes q ++ allInnerNodes qs

end

mutual

def getNodeWeight (nodeID : NodeID) : SCPQuorumSet → ℕ
  | .mk threshold validators innerSets =>
    let n := threshold.val
    let d := innerSets.length + validators.length
    if nodeID ∈ validators then (2 ^ 64 - 1) * n / d % 2 ^ 64
    else innerWeight nodeID innerSets * n / d % 2 ^ 64

/-- The weight in the first inner set that has one. -/
def innerWeight (nodeID : NodeID) : List SCPQuorumSet → ℕ
  | [] => 0
  | q :: qs =>
    let leafW := getNodeWeight nodeID q
    if leafW ≠ 0 then leafW else innerWeight nodeID qs

end

def hashNode (isPriority : Bool) (nodeID : NodeID) : NominationM ℕ := do
  let s ← get
  require (s.mPreviousValue ≠ []) .dbgAssert
  return driver.computeHashNode s.mPreviousValue isPriority s.mRoundNumber nodeID

def hashValue (value : Value) : NominationM ℕ := do
  let s ← get
  require (s.mPreviousValue ≠ []) .dbgAssert
  return driver.computeValueHash s.mPreviousValue s.mRoundNumber value

def getNodePriority (nodeID : NodeID) (qset : SCPQuorumSet) : NominationM ℕ := do
  let w := getNodeWeight nodeID qset
  if (← hashNode driver false nodeID) < w then hashNode driver true nodeID else return 0

/-- The loop over the nodes, with the top priority so far and its nodes. -/
def findLeaders : List NodeID → ℕ → List NodeID → NominationM (List NodeID)
  | [], _, leaders => return leaders
  | cur :: nodes, topPriority, leaders => do
    let w ← getNodePriority driver cur node.qSet
    let (topPriority, leaders) := if topPriority < w then (w, []) else (topPriority, leaders)
    if w = topPriority ∧ 0 < w then findLeaders nodes topPriority (leaders ++ [cur])
    else findLeaders nodes topPriority leaders

def updateRoundLeaders : NominationM Unit := do
  let leaders ← findLeaders node driver (allNodes node.qSet).dedup 0 []
  -- a `std::set`
  modify ({ · with mRoundLeaders := leaders.mergeSort })

/-! ## Votes -/

/-- Every value of a nomination. -/
def applyAll (nom : SCPNomination) : List Value := nom.votes ++ nom.accepted

/-- The value to vote for in place of `value`, empty if there is none. -/
def valueToNominate (value : Value) : NominationM Value := do
  if (← ask fun n => driver.validateValue n value) = .kFullyValidatedValue then return value
  else ask fun n => driver.extractValidValue n value

/-- The loop of `getNewValueFromNomination`. -/
def pickValue : List Value → Value → ℕ → NominationM Value
  | [], newVote, _ => return newVote
  | value :: values, newVote, newHash => do
    let valueToNominate ← valueToNominate driver value
    let s ← get
    if valueToNominate ≠ [] ∧ valueToNominate ∉ s.mVotes then
      let curHash ← hashValue driver valueToNominate
      if newHash ≤ curHash then pickValue values valueToNominate curHash
      else pickValue values newVote newHash
    else pickValue values newVote newHash

/-- The value with the highest hash that the node does not vote for yet, empty if there is none. -/
def getNewValueFromNomination (nom : SCPNomination) : NominationM Value :=
  pickValue driver (applyAll nom) [] 0

/-! ## Processing -/

inductive EnvelopeState where
  | INVALID
  | VALID
deriving DecidableEq, Repr

def isNewerStatementFor (nodeID : NodeID) (st : SCPNomination) (s : State) : Bool :=
  match s.mLatestNominations[nodeID]? with
  | none => true
  | some old => isNewerStatement old.statement.nominate st

def isSorted (values : List Value) : Bool := values.Pairwise (· ≤ ·)

/-- The pledges are sane: a set is not empty, and the values are sorted. -/
def isSanePledge (nom : SCPNomination) : Bool :=
  nom.votes.length + nom.accepted.length ≠ 0 && isSorted nom.votes && isSorted nom.accepted

def isSane (st : Statement) : NominationM Bool := do
  if isSanePledge st.nominate then
    let qSet ← deref (node.getQSet st.nominate.quorumSetHash) .nullDeref
    return isQuorumSetSane qSet false
  else return false

def recordEnvelope (env : Envelope) : NominationM Unit :=
  modify fun s =>
    { s with mLatestNominations := s.mLatestNominations.insert env.statement.nodeID env }

/-- The statement that lists what the node votes for and has accepted. -/
def ownStatement (votes accepted : ValueSet) : Statement where
  nodeID := node.nodeID
  slotIndex := node.slotIndex
  nominate := ⟨node.qSetHash, votes.toList, accepted.toList⟩

def ownEnvelope (votes accepted : ValueSet) : Envelope where
  statement := ownStatement node votes accepted
  signature := driver.signEnvelope (ownStatement node votes accepted)

/-- Makes a statement and gives it to `processEnvelope`. -/
def emitNomination (processEnvelope : Envelope → NominationM EnvelopeState) :
    NominationM Unit := do
  let s ← get
  let envelope := ownEnvelope node driver s.mVotes s.mAccepted
  if (← processEnvelope envelope) = .VALID then
    let s ← get
    if s.mLastEnvelope.all fun last =>
        isNewerStatement last.statement.nominate envelope.statement.nominate then
      set { s with
        mLastEnvelope := some envelope
        emitted := if s.mFullyValidated then s.emitted ++ [envelope] else s.emitted }
  else throw .badState

def acceptPredicate (v : Value) (nom : SCPNomination) : Bool := nom.accepted.contains v

def votePredicate (v : Value) (nom : SCPNomination) : Bool := nom.votes.contains v

/-- Attempts to promote the votes to accepted; answers whether the node has something to say. -/
def promoteVotes : List Value → Bool → NominationM Bool
  | [], modified => return modified
  | v :: votes, modified => do
    let s ← get
    if v ∈ s.mAccepted then promoteVotes votes modified
    else if federatedAccept node (votePredicate v) (acceptPredicate v) s.mLatestNominations then
      if (← ask fun n => driver.validateValue n v) = .kFullyValidatedValue then
        modify fun s => { s with mAccepted := s.mAccepted.insert v, mVotes := s.mVotes.insert v }
        promoteVotes votes true
      else
        -- see if we can vote for a variation that we consider valid
        let toVote ← ask fun n => driver.extractValidValue n v
        let s ← get
        if toVote ≠ [] ∧ toVote ∉ s.mVotes then
          set { s with mVotes := s.mVotes.insert toVote }
          promoteVotes votes true
        else promoteVotes votes modified
    else promoteVotes votes modified

/-- Attempts to promote accepted values to candidates. -/
def promoteAccepted : List Value → Bool → NominationM Bool
  | [], newCandidates => return newCandidates
  | a :: accepted, newCandidates => do
    let s ← get
    if a ∈ s.mCandidates then promoteAccepted accepted newCandidates
    else if federatedRatify node (acceptPredicate a) s.mLatestNominations then
      set { s with mCandidates := s.mCandidates.insert a }
      promoteAccepted accepted true
    else promoteAccepted accepted newCandidates

/-- Takes the vote of a round leader, if the node is still looking for candidates. -/
def takeLeaderVote (st : Statement) : NominationM Bool := do
  let s ← get
  if s.mCandidates.isEmpty ∧ st.nodeID ∈ s.mRoundLeaders then
    let newVote ← getNewValueFromNomination driver st.nominate
    if newVote ≠ [] then
      modify fun s => { s with mVotes := s.mVotes.insert newVote }
      return true
    else return false
  else return false

def newCandidate : NominationM Unit := do
  let s ← get
  let candidate ← ask fun n => driver.combineCandidates n s.mCandidates
  let (stops, mFullyValidated) ← ask fun n => driver.bumpState n candidate
  modify fun s => { s with
    mLatestCompositeCandidate := candidate
    mNominationStarted := s.mNominationStarted && !stops
    mFullyValidated }

/-- What a recorded statement leads to, once nomination is started. -/
def promote (emitNomination : NominationM Unit) (st : Statement) : NominationM Unit := do
  let modified ← promoteVotes node driver st.nominate.votes false
  let newCandidates ← promoteAccepted node (← get).mAccepted.toList false
  let tookVote ← takeLeaderVote driver st
  runIf (modified ∨ tookVote) emitNomination
  runIf newCandidates (newCandidate driver)

def processEnvelope : ℕ → Envelope → NominationM EnvelopeState
  | 0, _ => throw .stackOverflow
  | fuel + 1, envelope => do
    let st := envelope.statement
    let s ← get
    if !isNewerStatementFor st.nodeID st.nominate s then return .INVALID
    else if !(← isSane node st) then return .INVALID
    else
      recordEnvelope envelope
      runIf ((← get).mNominationStarted = true)
        (promote node driver (emitNomination node driver (processEnvelope fuel)) st)
      return .VALID

/-! ## Nominating -/

/-- The votes taken from the leaders that have a nomination. -/
def takeLeaderVotes : List NodeID → Bool → NominationM Bool
  | [], updated => return updated
  | leader :: leaders, updated => do
    match (← get).mLatestNominations[leader]? with
    | none => takeLeaderVotes leaders updated
    | some env =>
      let nominatingValue ← getNewValueFromNomination driver env.statement.nominate
      if nominatingValue ≠ [] then
        modify fun s => { s with mVotes := s.mVotes.insert nominatingValue }
        takeLeaderVotes leaders true
      else takeLeaderVotes leaders updated

/-- The votes of a new round: a leader votes for its own value. Answers whether there is a new
one. -/
def takeVotes (value : Value) : NominationM Bool := do
  let s ← get
  if node.nodeID ∈ s.mRoundLeaders then
    set { s with mVotes := s.mVotes.insert value }
    return decide (value ∉ s.mVotes)
  else takeLeaderVotes driver s.mRoundLeaders false

def nominate (fuel : ℕ) (value previousValue : Value) (timedout : Bool) : NominationM Bool := do
  let s ← get
  if timedout ∧ !s.mNominationStarted then return false
  else
    set { s with
      mNominationStarted := true
      mPreviousValue := previousValue
      mRoundNumber := s.mRoundNumber + 1 }
    updateRoundLeaders node driver
    let updated ← takeVotes node driver value
    runIf updated (emitNomination node driver (processEnvelope node driver fuel))
    return updated

def stopNomination : NominationM Unit := modify ({ · with mNominationStarted := false })

/-- `Slot::setStateFromEnvelope` ignores the envelopes of others. -/
def setStateFromEnvelope (e : Envelope) : NominationM Unit := do
  runIf (e.statement.nodeID = node.nodeID ∧ e.statement.slotIndex = node.slotIndex) do
    if (← get).mNominationStarted then throw .alreadyStarted
    else
      recordEnvelope e
      let nom := e.statement.nominate
      modify fun s => { s with
        mAccepted := s.mAccepted.insertMany nom.accepted
        mVotes := s.mVotes.insertMany nom.votes
        mLastEnvelope := some e }

/-! ## Runs -/

/-- What can happen to a slot. -/
inductive Input where
  | envelope (env : Envelope)
  | nominate (value previousValue : Value)
  /-- the timer of `nominate` -/
  | timeout (value previousValue : Value)
  /-- the ballot protocol stops nomination, or finds a value that it cannot validate -/
  | stopNomination
  | setFullyValidated (fullyValidated : Bool)

def step (fuel : ℕ) : Input → NominationM Unit
  | .envelope env => do let _ ← processEnvelope node driver fuel env
  | .nominate value previousValue => do let _ ← nominate node driver fuel value previousValue false
  | .timeout value previousValue => do let _ ← nominate node driver fuel value previousValue true
  | .stopNomination => stopNomination
  | .setFullyValidated fullyValidated => modify ({ · with mFullyValidated := fullyValidated })

def freshNomination : State where
  mFullyValidated := node.isValidator

/-- A run: what was saved is restored first, by `restoreSCPState`. -/
def run (fuel : ℕ) (restored : List Envelope) (inputs : List Input) : NominationM Unit := do
  runInputs (setStateFromEnvelope node) restored
  runInputs (step node driver fuel) inputs

/-! ## The order of statements -/

/-- The statement lists these votes and accepted values. -/
def Says (env : Envelope) (votes accepted : ValueSet) : Prop :=
  env.statement.nominate.votes = votes.toList ∧ env.statement.nominate.accepted = accepted.toList

theorem sorted_toList (V : ValueSet) : V.toList.Pairwise (· < ·) :=
  V.ordered_toList.imp fun h => compare_lt_iff_lt.mp h

theorem nodup_toList (V : ValueSet) : V.toList.Nodup := (sorted_toList V).imp fun h => h.ne

/-- Of sorted lists, `std::includes` looks for a sublist. -/
theorem includes_iff_sublist {v p : List Value} (hv : v.Pairwise (· ≤ ·))
    (hp : p.Pairwise (· ≤ ·)) : includes v p = true ↔ p.Sublist v := by
  induction v generalizing p with
  | nil => cases p <;> simp [includes]
  | cons a v ih =>
    cases p with
    | nil => simp [includes]
    | cons b p =>
      obtain ⟨ha, hv⟩ := List.pairwise_cons.mp hv
      have hp' := (List.pairwise_cons.mp hp).2
      unfold includes
      split_ifs with hba hab
      · -- `b` is before everything in `v`
        simp only [false_iff]
        intro hsub
        rcases List.mem_cons.mp (hsub.subset List.mem_cons_self) with rfl | hmem
        · exact lt_irrefl _ hba
        · exact absurd (ha b hmem) (not_le.mpr hba)
      · rw [ih hv hp]
        refine ⟨fun hsub => hsub.cons a, fun hsub => ?_⟩
        cases hsub with
        | cons _ hsub => exact hsub
        | cons_cons _ _ => exact absurd hab (lt_irrefl _)
      · obtain rfl : a = b := le_antisymm (not_lt.mp hba) (not_lt.mp hab)
        rw [ih hv hp', List.cons_sublist_cons]

theorem includes_iff {v p : List Value} (hv : v.Pairwise (· < ·)) (hp : p.Pairwise (· < ·)) :
    includes v p = true ↔ ∀ x ∈ p, x ∈ v := by
  have hv' : v.Pairwise (· ≤ ·) := hv.imp fun h => h.le
  have hp' : p.Pairwise (· ≤ ·) := hp.imp fun h => h.le
  rw [includes_iff_sublist hv' hp']
  refine ⟨fun hsub x hx => hsub.subset hx, fun hsub => ?_⟩
  have hnodup : p.Nodup := hp.imp fun h => h.ne
  exact List.sublist_of_subperm_of_pairwise (hnodup.subperm hsub) hp' hv'

/-- The sets are included in one another. -/
def Within (V V' : ValueSet) : Prop := ∀ v ∈ V, v ∈ V'

theorem Within.refl (V : ValueSet) : Within V V := fun _ h => h

theorem Within.trans {V V' V'' : ValueSet} (h : Within V V') (h' : Within V' V'') : Within V V'' :=
  fun v hv => h' v (h v hv)

theorem Within.antisymm {V V' : ValueSet} (h : Within V V') (h' : Within V' V) : V = V' :=
  Std.ExtTreeSet.ext_mem fun v => ⟨h v, h' v⟩

theorem Within.insert (V : ValueSet) (v : Value) : Within V (V.insert v) := fun x hx => by
  rw [Std.ExtTreeSet.mem_insert]
  exact Or.inr hx

theorem Within.subset {V V' : ValueSet} (h : Within V V') : V.toList ⊆ V'.toList := fun v hv =>
  Std.ExtTreeSet.mem_toList.mpr (h v (Std.ExtTreeSet.mem_toList.mp hv))

theorem Within.length_le {V V' : ValueSet} (h : Within V V') :
    V.toList.length ≤ V'.toList.length :=
  (List.subperm_of_subset (nodup_toList V) h.subset).length_le

/-- Of included sets, the lists tell whether they differ by their lengths. -/
theorem Within.length_eq_iff {V V' : ValueSet} (h : Within V V') :
    V.toList.length = V'.toList.length ↔ V = V' := by
  constructor
  · intro hlen
    have hperm := (List.subperm_of_subset (nodup_toList V) h.subset).perm_of_length_le hlen.ge
    refine h.antisymm fun v hv => ?_
    exact Std.ExtTreeSet.mem_toList.mp (hperm.mem_iff.mpr (Std.ExtTreeSet.mem_toList.mpr hv))
  · rintro rfl
    rfl

theorem isSubsetHelper_eq (V V' : ValueSet) :
    isSubsetHelper V.toList V'.toList = (true, decide (V ≠ V')) ∧ Within V V' ∨
      isSubsetHelper V.toList V'.toList = (false, true) ∧ ¬ Within V V' := by
  have hincludes : includes V'.toList V.toList = true ↔ Within V V' := by
    rw [includes_iff (sorted_toList V') (sorted_toList V)]
    simp only [Std.ExtTreeSet.mem_toList]
    rfl
  unfold isSubsetHelper
  by_cases h : Within V V'
  · rw [if_pos h.length_le, if_pos (hincludes.mpr h)]
    refine Or.inl ⟨?_, h⟩
    rw [Prod.mk.injEq]
    exact ⟨rfl, decide_eq_decide.mpr (not_congr h.length_eq_iff)⟩
  · rw [if_neg (mt hincludes.mp h), ite_self]
    exact Or.inr ⟨rfl, h⟩

/-- **A statement is newer** iff it lists more. -/
theorem isNewerStatement_iff {V A V' A' : ValueSet} {nom nom' : SCPNomination}
    (h : nom.votes = V.toList ∧ nom.accepted = A.toList)
    (h' : nom'.votes = V'.toList ∧ nom'.accepted = A'.toList) :
    isNewerStatement nom nom' = true ↔
      Within V V' ∧ Within A A' ∧ (V ≠ V' ∨ A ≠ A') := by
  unfold isNewerStatement
  rw [h.1, h.2, h'.1, h'.2]
  rcases isSubsetHelper_eq V V' with ⟨hv, hV⟩ | ⟨hv, hV⟩
  · rcases isSubsetHelper_eq A A' with ⟨ha, hA⟩ | ⟨ha, hA⟩
    · simp [hv, ha, hV, hA]
    · simp [hv, ha, hA]
  · simp [hv, hV]

/-! ## Invariants -/

/-- The three sets only grow. -/
structure Grows (s s' : State) : Prop where
  votes : Within s.mVotes s'.mVotes
  accepted : Within s.mAccepted s'.mAccepted
  candidates : Within s.mCandidates s'.mCandidates

/-- A candidate is accepted, and what is accepted is voted for. -/
structure Included (s : State) : Prop where
  candidates : Within s.mCandidates s.mAccepted
  accepted : Within s.mAccepted s.mVotes

/-- A node that makes this statement votes for what it has accepted. -/
def Restorable (env : Envelope) : Prop := ∃ V A, Says env V A ∧ Within A V

/-- An envelope lists no more than what the node votes for and has accepted. -/
def Below (env : Envelope) (V' A' : ValueSet) : Prop :=
  ∃ V A, Says env V A ∧ Within V V' ∧ Within A A'

structure Inv (s : State) : Prop where
  included : Included s
  latest : ∀ env, s.mLatestNominations[node.nodeID]? = some env → Below env s.mVotes s.mAccepted
  last : ∀ env, s.mLastEnvelope = some env → Below env s.mVotes s.mAccepted ∧ Restorable env
  /-- what was emitted is not newer than the last envelope -/
  emitted : ∀ env ∈ s.emitted, ∃ V A, env = ownEnvelope node driver V A ∧ (∃ v, v ∈ V) ∧
    ∃ last V' A', s.mLastEnvelope = some last ∧ Says last V' A' ∧ Within V V' ∧ Within A A'
  ordered : s.emitted.Pairwise fun env env' =>
    isNewerStatement env.statement.nominate env'.statement.nominate = true

/-- The node has something to say that its latest statement does not. -/
structure Ready (s : State) : Prop where
  nonempty : ∃ v, v ∈ s.mVotes
  newer : ∀ env V A, s.mLatestNominations[node.nodeID]? = some env → Says env V A →
    V ≠ s.mVotes ∨ A ≠ s.mAccepted

/-- One of the two sets that a statement lists has grown. -/
def Extended (s s' : State) : Prop :=
  ∃ v, v ∈ s'.mVotes ∧ v ∉ s.mVotes ∨ v ∈ s'.mAccepted ∧ v ∉ s.mAccepted

/-- What the loops of `processEnvelope` and `nominate` do. -/
structure Voted (s s' : State) : Prop where
  grows : Grows s s'
  included : Included s → Included s'
  latest : s'.mLatestNominations = s.mLatestNominations
  last : s'.mLastEnvelope = s.mLastEnvelope
  emitted : s'.emitted = s.emitted

variable {node driver} {s t u : State}

theorem Grows.refl (s : State) : Grows s s := ⟨.refl _, .refl _, .refl _⟩

theorem Grows.trans (h : Grows s t) (h' : Grows t u) : Grows s u :=
  ⟨h.votes.trans h'.votes, h.accepted.trans h'.accepted, h.candidates.trans h'.candidates⟩

theorem Voted.refl (s : State) : Voted s s := ⟨.refl s, id, rfl, rfl, rfl⟩

theorem Voted.trans (h : Voted s t) (h' : Voted t u) : Voted s u :=
  ⟨h.grows.trans h'.grows, fun hs => h'.included (h.included hs), h'.latest.trans h.latest,
    h'.last.trans h.last, h'.emitted.trans h.emitted⟩

theorem Extended.trans_right (h : Extended s t) (h' : Grows t u) : Extended s u := by
  obtain ⟨v, hv⟩ := h
  exact ⟨v, hv.imp (fun h => ⟨h'.votes v h.1, h.2⟩) fun h => ⟨h'.accepted v h.1, h.2⟩⟩

theorem Extended.trans_left (h : Extended t u) (h' : Grows s t) : Extended s u := by
  obtain ⟨v, hv⟩ := h
  refine ⟨v, hv.imp (fun h => ⟨h.1, fun hs => h.2 (h'.votes v hs)⟩) fun h => ⟨h.1, fun hs => ?_⟩⟩
  exact h.2 (h'.accepted v hs)

theorem Below.grows {env : Envelope} {V A V' A' : ValueSet} (h : Below env V A) (hV : Within V V')
    (hA : Within A A') : Below env V' A' := by
  obtain ⟨V₀, A₀, hsays, hV₀, hA₀⟩ := h
  exact ⟨V₀, A₀, hsays, hV₀.trans hV, hA₀.trans hA⟩

theorem Inv.voted (h : Inv node driver s) (hs : Voted s t) : Inv node driver t := by
  refine ⟨hs.included h.included, fun env henv => ?_, fun env henv => ?_, ?_, ?_⟩
  · rw [hs.latest] at henv
    exact (h.latest env henv).grows hs.grows.votes hs.grows.accepted
  · rw [hs.last] at henv
    exact (h.last env henv).imp_left fun h => h.grows hs.grows.votes hs.grows.accepted
  · rw [hs.emitted, hs.last]
    exact h.emitted
  · rw [hs.emitted]
    exact h.ordered

/-- The node has something to say once a set has grown. -/
theorem Inv.ready (h : Inv node driver s) (hs : Voted s t) (hext : Extended s t) :
    Ready node t := by
  have ht := h.voted hs
  obtain ⟨v, hv⟩ := hext
  refine ⟨⟨v, hv.elim And.left fun hv => ht.included.accepted v hv.1⟩, fun env V A henv hsays => ?_⟩
  rw [hs.latest] at henv
  obtain ⟨V₀, A₀, hsays₀, hV, hA⟩ := h.latest env henv
  have hV₀ : V₀.toList = V.toList := hsays₀.1.symm.trans hsays.1
  have hA₀ : A₀.toList = A.toList := hsays₀.2.symm.trans hsays.2
  by_contra hnot
  push Not at hnot
  obtain ⟨rfl, rfl⟩ := hnot
  rcases hv with ⟨hmem, hnew⟩ | ⟨hmem, hnew⟩
  · refine hnew (hV v ?_)
    rwa [← Std.ExtTreeSet.mem_toList, hV₀, Std.ExtTreeSet.mem_toList]
  · refine hnew (hA v ?_)
    rwa [← Std.ExtTreeSet.mem_toList, hA₀, Std.ExtTreeSet.mem_toList]

/-! ## The loops -/

@[simp] theorem wp_ask {α : Type} {question : ℕ → α} {Q : α → State → Prop}
    {E : Fault → State → Prop} :
    wp (ask question) Q E s ↔ Q (question s.asked) { s with asked := s.asked + 1 } := Iff.rfl

/-- Nothing that matters here has changed. -/
theorem Voted.of_eq (hvotes : t.mVotes = s.mVotes) (haccepted : t.mAccepted = s.mAccepted)
    (hcandidates : t.mCandidates = s.mCandidates)
    (hlatest : t.mLatestNominations = s.mLatestNominations)
    (hlast : t.mLastEnvelope = s.mLastEnvelope) (hemitted : t.emitted = s.emitted) :
    Voted s t := by
  refine ⟨⟨?_, ?_, ?_⟩, fun h => ⟨?_, ?_⟩, hlatest, hlast, hemitted⟩
  · rw [hvotes]
    exact .refl _
  · rw [haccepted]
    exact .refl _
  · rw [hcandidates]
    exact .refl _
  · rw [hcandidates, haccepted]
    exact h.candidates
  · rw [haccepted, hvotes]
    exact h.accepted

theorem voted_asked (n : ℕ) : Voted s { s with asked := n } := .of_eq rfl rfl rfl rfl rfl rfl

/-- How a loop ends: its answer is whether something has grown, or what it was before. -/
def WpVoted (s : State) (before : Bool) (x : NominationM Bool) : Prop :=
  wp x (fun after s' => Voted s s' ∧ (after = true → before = true ∨ Extended s s'))
    (fun e s' => e ≠ .badState ∧ Voted s s') s

theorem WpVoted.after {x : NominationM Bool} {before : Bool} (hs : Voted s t)
    (h : WpVoted t before x) :
    wp x (fun after s' => Voted s s' ∧ (after = true → before = true ∨ Extended s s'))
      (fun e s' => e ≠ .badState ∧ Voted s s') t := by
  refine wp_mono h (fun after s' h => ⟨hs.trans h.1, fun hafter => ?_⟩) fun _ _ h =>
    ⟨h.1, hs.trans h.2⟩
  exact (h.2 hafter).imp_right fun hext => hext.trans_left hs.grows

/-- Something has grown, and the loop goes on with the answer `true`. -/
theorem WpVoted.afterExtended {x : NominationM Bool} {before : Bool} (hs : Voted s t)
    (hext : Extended s t) (h : WpVoted t true x) :
    wp x (fun after s' => Voted s s' ∧ (after = true → before = true ∨ Extended s s'))
      (fun e s' => e ≠ .badState ∧ Voted s s') t :=
  wp_mono h (fun _ _ h => ⟨hs.trans h.1, fun _ => Or.inr (hext.trans_right h.1.grows)⟩) fun _ _ h =>
    ⟨h.1, hs.trans h.2⟩

/-- A vote is added. -/
theorem voted_insert (v : Value) (n : ℕ) :
    Voted s { s with mVotes := s.mVotes.insert v, asked := n } :=
  ⟨⟨.insert _ _, .refl _, .refl _⟩,
    fun h => ⟨h.candidates, h.accepted.trans (.insert _ _)⟩, rfl, rfl, rfl⟩

theorem extended_insert {v : Value} (hv : v ∉ s.mVotes) (n : ℕ) :
    Extended s { s with mVotes := s.mVotes.insert v, asked := n } :=
  ⟨v, Or.inl ⟨Std.ExtTreeSet.mem_insert_self, hv⟩⟩

theorem wp_promoteVotes (votes : List Value) (modified : Bool) :
    WpVoted s modified (promoteVotes node driver votes modified) := by
  induction votes generalizing s modified with
  | nil => exact ⟨.refl s, Or.inl⟩
  | cons v votes ih =>
    simp only [WpVoted, promoteVotes, wp_bind, wp_get, wp_ite, wp_ask]
    refine ⟨fun _ => ih modified, fun hnew => ⟨fun _ => ⟨fun _ => ?_, fun _ => ?_⟩,
      fun _ => ih modified⟩⟩
    · -- the value is valid: it is accepted, and voted for
      rw [wp_modify]
      refine WpVoted.afterExtended ⟨⟨.insert _ _, .insert _ _, .refl _⟩, fun h => ⟨?_, ?_⟩, rfl, rfl,
        rfl⟩ ⟨v, Or.inr ⟨Std.ExtTreeSet.mem_insert_self, hnew⟩⟩ (ih true)
      · exact h.candidates.trans (.insert _ _)
      · intro x hx
        rw [Std.ExtTreeSet.mem_insert] at hx ⊢
        exact hx.imp_right (h.accepted x)
    · refine ⟨fun hvote => ?_, fun _ => (ih modified).after (voted_asked _)⟩
      exact WpVoted.afterExtended (voted_insert _ _) (extended_insert hvote.2 _) (ih true)

theorem wp_promoteAccepted (accepted : List Value) (newCandidates : Bool)
    (h : ∀ a ∈ accepted, a ∈ s.mAccepted) :
    wp (promoteAccepted node accepted newCandidates)
      (fun _ s' => Voted s s' ∧ s'.mVotes = s.mVotes ∧ s'.mAccepted = s.mAccepted)
      (fun _ _ => False) s := by
  induction accepted generalizing s newCandidates with
  | nil => exact ⟨.refl s, rfl, rfl⟩
  | cons a accepted ih =>
    have hrest : ∀ a ∈ accepted, a ∈ s.mAccepted := fun a ha => h a (List.mem_cons_of_mem _ ha)
    simp only [promoteAccepted, wp_bind, wp_get, wp_ite, wp_set]
    refine ⟨fun _ => ih newCandidates hrest, fun _ => ⟨fun _ => ?_, fun _ => ih newCandidates hrest⟩⟩
    have hvoted : Voted s { s with mCandidates := s.mCandidates.insert a } := by
      refine ⟨⟨.refl _, .refl _, .insert _ _⟩, fun hin => ⟨fun v hv => ?_, hin.accepted⟩, rfl, rfl,
        rfl⟩
      rw [Std.ExtTreeSet.mem_insert] at hv
      rcases hv with heq | hv
      · rw [← compare_eq_iff_eq.mp heq]
        exact h a List.mem_cons_self
      · exact hin.candidates v hv
    refine wp_mono (ih true hrest) (fun _ s' hs' => ⟨hvoted.trans hs'.1, hs'.2⟩) fun _ _ h => h

theorem wp_hashValue (value : Value) :
    wp (hashValue driver value) (fun _ s' => s' = s) (fun e s' => e ≠ .badState ∧ s' = s) s := by
  simp only [hashValue, wp_bind, wp_get, wp_require, wp_pure]
  exact ⟨fun _ => trivial, fun _ => ⟨by simp, trivial⟩⟩

/-- The value that is picked is not voted for yet. -/
theorem wp_pickValue (values : List Value) (newVote : Value) (newHash : ℕ)
    (h : newVote ≠ [] → newVote ∉ s.mVotes) :
    wp (pickValue driver values newVote newHash)
      (fun vote s' => Voted s s' ∧ (vote ≠ [] → vote ∉ s'.mVotes))
      (fun e s' => e ≠ .badState ∧ Voted s s') s := by
  induction values generalizing s newVote newHash with
  | nil => exact ⟨.refl s, h⟩
  | cons value values ih =>
    rw [pickValue, wp_bind]
    have hnominate : wp (valueToNominate driver value)
        (fun _ s' => Voted s s' ∧ s'.mVotes = s.mVotes) (fun _ _ => False) s := by
      simp only [valueToNominate, wp_bind, wp_ite, wp_ask, wp_pure]
      exact ⟨fun _ => ⟨voted_asked _, trivial⟩, fun _ => ⟨voted_asked _, trivial⟩⟩
    refine wp_mono hnominate (fun toNominate t ht => ?_) fun _ _ h => h.elim
    obtain ⟨ht, hvotes⟩ := ht
    have h : newVote ≠ [] → newVote ∉ t.mVotes := by rwa [hvotes]
    have hgo : ∀ vote hash, (vote ≠ [] → vote ∉ t.mVotes) →
        wp (pickValue driver values vote hash)
          (fun vote s' => Voted s s' ∧ (vote ≠ [] → vote ∉ s'.mVotes))
          (fun e s' => e ≠ .badState ∧ Voted s s') t := fun vote hash hvote =>
      wp_mono (ih vote hash hvote) (fun _ _ h => ⟨ht.trans h.1, h.2⟩) fun _ _ h =>
        ⟨h.1, ht.trans h.2⟩
    simp only [wp_bind, wp_get, wp_ite]
    refine ⟨fun hnew => ?_, fun _ => hgo newVote newHash h⟩
    refine wp_mono (wp_hashValue _) (fun curHash u hu => ?_) fun e u hu => ⟨hu.1, hu.2 ▸ ht⟩
    subst hu
    exact ⟨fun _ => hgo _ curHash fun _ => hnew.2, fun _ => hgo newVote newHash h⟩

theorem wp_getNewValueFromNomination (nom : SCPNomination) :
    wp (getNewValueFromNomination driver nom)
      (fun vote s' => Voted s s' ∧ (vote ≠ [] → vote ∉ s'.mVotes))
      (fun e s' => e ≠ .badState ∧ Voted s s') s :=
  wp_pickValue _ _ _ fun hne => absurd rfl hne

theorem wp_takeLeaderVote (st : Statement) : WpVoted s false (takeLeaderVote driver st) := by
  simp only [WpVoted, takeLeaderVote, wp_bind, wp_get, wp_ite, wp_modify, wp_pure]
  refine ⟨fun _ => ?_, fun _ => ⟨.refl s, by simp⟩⟩
  refine wp_mono (wp_getNewValueFromNomination _) (fun vote t ht => ?_) fun _ _ h => h
  refine ⟨fun hne => ⟨ht.1.trans (voted_insert vote _), fun _ => Or.inr ?_⟩, fun _ => ⟨ht.1, by simp⟩⟩
  exact (extended_insert (ht.2 hne) _).trans_left ht.1.grows

theorem wp_takeLeaderVotes (leaders : List NodeID) (updated : Bool) :
    WpVoted s updated (takeLeaderVotes driver leaders updated) := by
  induction leaders generalizing s updated with
  | nil => exact ⟨.refl s, Or.inl⟩
  | cons leader leaders ih =>
    simp only [WpVoted, takeLeaderVotes, wp_bind, wp_get]
    cases s.mLatestNominations[leader]? with
    | none => exact ih updated
    | some env =>
      simp only [wp_bind, wp_ite, wp_modify]
      refine wp_mono (wp_getNewValueFromNomination _) (fun vote t ht => ?_) fun _ _ h => h
      refine ⟨fun hne => ?_, fun _ => (ih updated).after ht.1⟩
      exact WpVoted.afterExtended (ht.1.trans (voted_insert vote _))
        ((extended_insert (ht.2 hne) _).trans_left ht.1.grows) (ih true)

theorem wp_takeVotes (value : Value) : WpVoted s false (takeVotes node driver value) := by
  simp only [WpVoted, takeVotes, wp_bind, wp_get, wp_ite, wp_set, wp_pure]
  refine ⟨fun _ => ⟨voted_insert value s.asked, fun hnew => Or.inr ?_⟩, fun _ =>
    wp_takeLeaderVotes _ _⟩
  exact extended_insert (of_decide_eq_true hnew) s.asked

theorem wp_hashNode (isPriority : Bool) (nodeID : NodeID) :
    wp (hashNode driver isPriority nodeID) (fun _ s' => s' = s)
      (fun e s' => e ≠ .badState ∧ s' = s) s := by
  simp only [hashNode, wp_bind, wp_get, wp_require, wp_pure]
  exact ⟨fun _ => trivial, fun _ => ⟨by simp, trivial⟩⟩

theorem wp_getNodePriority (nodeID : NodeID) (qset : SCPQuorumSet) :
    wp (getNodePriority driver nodeID qset) (fun _ s' => s' = s)
      (fun e s' => e ≠ .badState ∧ s' = s) s := by
  simp only [getNodePriority, wp_bind, wp_ite, wp_pure]
  refine wp_mono (wp_hashNode false nodeID) (fun hash t ht => ?_) fun _ _ h => h
  subst ht
  exact ⟨fun _ => wp_hashNode true nodeID, fun _ => rfl⟩

theorem wp_findLeaders (nodes : List NodeID) (topPriority : ℕ) (leaders : List NodeID) :
    wp (findLeaders node driver nodes topPriority leaders) (fun _ s' => s' = s)
      (fun e s' => e ≠ .badState ∧ s' = s) s := by
  induction nodes generalizing topPriority leaders with
  | nil => exact rfl
  | cons cur nodes ih =>
    simp only [findLeaders, wp_bind]
    refine wp_mono (wp_getNodePriority cur _) (fun w t ht => ?_) fun _ _ h => h
    subst ht
    split_ifs <;> exact ih _ _

theorem wp_updateRoundLeaders :
    wp (updateRoundLeaders node driver) (fun _ s' => Voted s s')
      (fun e s' => e ≠ .badState ∧ Voted s s') s := by
  simp only [updateRoundLeaders, wp_bind, wp_modify]
  refine wp_mono (wp_findLeaders _ _ _) (fun leaders t ht => ?_) fun e t ht =>
    ⟨ht.1, ht.2 ▸ .refl s⟩
  subst ht
  exact .of_eq rfl rfl rfl rfl rfl rfl

theorem wp_newCandidate :
    wp (newCandidate driver) (fun _ s' => Voted s s') (fun _ _ => False) s := by
  simp only [newCandidate, wp_bind, wp_get, wp_ask, wp_modify]
  exact .of_eq rfl rfl rfl rfl rfl rfl

/-! ## Statements of the node itself -/

/-- How an execution keeps the invariant. -/
def WpKeeps {α : Type} (node : Node) (driver : Driver) (s₀ : State) (Q : α → Prop)
    (x : NominationM α) (s : State) : Prop :=
  wp x (fun a s' => Q a ∧ Inv node driver s' ∧ Grows s₀ s')
    (fun e s' => e ≠ .badState ∧ Inv node driver s' ∧ Grows s₀ s') s

theorem says_ownEnvelope (V A : ValueSet) : Says (ownEnvelope node driver V A) V A := ⟨rfl, rfl⟩

theorem isSanePledge_own {V A : ValueSet} (h : ∃ v, v ∈ V) :
    isSanePledge (ownEnvelope node driver V A).statement.nominate = true := by
  obtain ⟨v, hv⟩ := h
  have hne : V.toList ≠ [] := List.ne_nil_of_mem (Std.ExtTreeSet.mem_toList.mpr hv)
  have hsorted : ∀ W : ValueSet, isSorted W.toList = true := fun W =>
    decide_eq_true ((sorted_toList W).imp fun h => h.le)
  have hlen := List.length_pos_iff.mpr hne
  have hcount : V.toList.length + A.toList.length ≠ 0 := by omega
  simp only [isSanePledge, ownEnvelope, ownStatement, hsorted, Bool.and_true]
  exact decide_eq_true hcount

/-- A statement of the node is sane. -/
theorem isSane_own {V A : ValueSet} (h : ∃ v, v ∈ V) (s : State) :
    isSane node (ownEnvelope node driver V A).statement s = .ok true s := by
  unfold isSane
  rw [if_pos (isSanePledge_own h)]
  show (deref (node.getQSet node.qSetHash) .nullDeref >>= fun qSet =>
    pure (isQuorumSetSane qSet false) : NominationM Bool) s = _
  rw [node.getQSet_qSetHash]
  show EStateM.Result.ok (isQuorumSetSane node.qSet false) s = _
  rw [node.qSet_sane]

theorem wp_isSane (driver : Driver) (env : Envelope) :
    wp (isSane node env.statement)
      (fun sane s' => s' = s ∧ ∀ V A, (∃ v, v ∈ V) → env = ownEnvelope node driver V A → sane = true)
      (fun e s' => e ≠ .badState ∧ s' = s) s := by
  by_cases hown : ∃ V A, (∃ v, v ∈ V) ∧ env = ownEnvelope node driver V A
  · obtain ⟨V, A, hne, rfl⟩ := hown
    unfold wp
    rw [isSane_own hne]
    exact ⟨rfl, fun _ _ _ _ => rfl⟩
  · have hother : ∀ sane V A, (∃ v, v ∈ V) → env = ownEnvelope node driver V A → sane = true :=
      fun sane V A hne heq => absurd ⟨V, A, hne, heq⟩ hown
    simp only [isSane, wp_ite, wp_bind, wp_deref, wp_pure]
    exact ⟨fun _ => ⟨fun _ _ => ⟨trivial, hother _⟩, fun _ => ⟨by simp, trivial⟩⟩,
      fun _ => ⟨trivial, hother _⟩⟩

/-- The statement that the node is about to make is newer than its latest. -/
theorem isNewerStatementFor_own (h : Inv node driver s) (hready : Ready node s) :
    isNewerStatementFor node.nodeID
      (ownEnvelope node driver s.mVotes s.mAccepted).statement.nominate s = true := by
  unfold isNewerStatementFor
  cases hlatest : s.mLatestNominations[node.nodeID]? with
  | none => rfl
  | some old =>
    obtain ⟨V, A, hsays, hV, hA⟩ := h.latest old hlatest
    exact (isNewerStatement_iff hsays (says_ownEnvelope _ _)).mpr
      ⟨hV, hA, hready.newer old V A hlatest hsays⟩

/-- The envelope of another node is recorded. -/
theorem Inv.recordForeign (h : Inv node driver s) {env : Envelope}
    (hne : env.statement.nodeID ≠ node.nodeID) :
    Inv node driver
      { s with mLatestNominations := s.mLatestNominations.insert env.statement.nodeID env } := by
  refine ⟨⟨h.included.candidates, h.included.accepted⟩, fun e he => ?_, h.last, h.emitted, h.ordered⟩
  refine h.latest e ?_
  rwa [Std.ExtTreeMap.getElem?_insert, if_neg (mt compare_eq_iff_eq.mp hne)] at he

/-- So is the statement of the node. -/
theorem Inv.recordOwn (h : Inv node driver s) :
    Inv node driver { s with
      mLatestNominations := s.mLatestNominations.insert node.nodeID
        (ownEnvelope node driver s.mVotes s.mAccepted) } := by
  refine ⟨⟨h.included.candidates, h.included.accepted⟩, fun e he => ?_, h.last, h.emitted, h.ordered⟩
  rw [Std.ExtTreeMap.getElem?_insert_self, Option.some.injEq] at he
  subst he
  exact ⟨_, _, says_ownEnvelope _ _, .refl _, .refl _⟩

/-- The node takes note of a statement that it has made, and emits it if it is fully validated. -/
theorem Inv.say (h : Inv node driver s) {V A : ValueSet} (hV : Within V s.mVotes)
    (hA : Within A s.mAccepted) (hincluded : Within A V) (hne : ∃ v, v ∈ V)
    (hnewer : ∀ last, s.mLastEnvelope = some last → isNewerStatement last.statement.nominate
      (ownEnvelope node driver V A).statement.nominate = true) :
    Inv node driver { s with
      mLastEnvelope := some (ownEnvelope node driver V A)
      emitted := if s.mFullyValidated then s.emitted ++ [ownEnvelope node driver V A]
        else s.emitted } := by
  -- what was emitted before is below the last envelope, which is older
  have hold : ∀ env ∈ s.emitted, ∃ V₀ A₀, env = ownEnvelope node driver V₀ A₀ ∧ (∃ v, v ∈ V₀) ∧
      Within V₀ V ∧ Within A₀ A ∧
      isNewerStatement env.statement.nominate
        (ownEnvelope node driver V A).statement.nominate = true := by
    intro env henv
    obtain ⟨V₀, A₀, rfl, hne₀, last, V', A', hlast, hsays, hV₀, hA₀⟩ := h.emitted env henv
    obtain ⟨hV', hA', hdiff⟩ :=
      (isNewerStatement_iff hsays (says_ownEnvelope V A)).mp (hnewer last hlast)
    refine ⟨V₀, A₀, rfl, hne₀, hV₀.trans hV', hA₀.trans hA', ?_⟩
    refine (isNewerStatement_iff (says_ownEnvelope _ _) (says_ownEnvelope _ _)).mpr
      ⟨hV₀.trans hV', hA₀.trans hA', ?_⟩
    by_contra hnot
    push Not at hnot
    obtain ⟨rfl, rfl⟩ := hnot
    rcases hdiff with hdiff | hdiff
    · exact hdiff (hV'.antisymm hV₀)
    · exact hdiff (hA'.antisymm hA₀)
  refine ⟨⟨h.included.candidates, h.included.accepted⟩, h.latest, fun env henv => ?_,
    fun env henv => ?_, ?_⟩
  · cases henv
    exact ⟨⟨V, A, says_ownEnvelope V A, hV, hA⟩, V, A, says_ownEnvelope V A, hincluded⟩
  · have hcases : env ∈ s.emitted ∨ env = ownEnvelope node driver V A := by
      dsimp only at henv
      split_ifs at henv
      · simpa using henv
      · exact Or.inl henv
    rcases hcases with henv | rfl
    · obtain ⟨V₀, A₀, heq, hne₀, hV₀, hA₀, -⟩ := hold env henv
      exact ⟨V₀, A₀, heq, hne₀, _, V, A, rfl, says_ownEnvelope V A, hV₀, hA₀⟩
    · exact ⟨V, A, rfl, hne, _, V, A, rfl, says_ownEnvelope V A, .refl V, .refl A⟩
  · dsimp only
    split_ifs
    · refine List.pairwise_append.mpr ⟨h.ordered, List.pairwise_singleton _ _, fun env henv e he => ?_⟩
      obtain ⟨V₀, A₀, -, -, -, -, hnew⟩ := hold env henv
      rwa [List.mem_singleton.mp he]
    · exact h.ordered

/-- `emitNomination` does not throw, if the node considers its own statement valid. -/
theorem wp_emitNomination {process : Envelope → NominationM EnvelopeState} {s₀ : State}
    (hprocess : WpKeeps node driver s (· = .VALID)
      (process (ownEnvelope node driver s.mVotes s.mAccepted)) s)
    (h : Inv node driver s) (hready : Ready node s) (hgrows : Grows s₀ s) :
    WpKeeps node driver s₀ (fun _ => True) (emitNomination node driver process) s := by
  simp only [WpKeeps, emitNomination, wp_bind, wp_get, wp_ite, wp_throw]
  refine wp_mono hprocess (fun valid t ht => ?_) fun e t ht => ⟨ht.1, ht.2.1, hgrows.trans ht.2.2⟩
  obtain ⟨rfl, ht, hs⟩ := ht
  refine ⟨fun _ => ⟨fun hnewer => ?_, fun _ => ⟨trivial, ht, hgrows.trans hs⟩⟩, by simp⟩
  refine ⟨trivial, ht.say hs.votes hs.accepted h.included.accepted hready.nonempty ?_,
    hgrows.trans ⟨hs.votes, hs.accepted, hs.candidates⟩⟩
  intro last hlast
  rwa [hlast] at hnewer

theorem wp_promote {emit : NominationM Unit} (st : Statement) (h : Inv node driver s)
    (hemit : ∀ t, Voted s t → Extended s t → WpKeeps node driver s (fun _ => True) emit t) :
    WpKeeps node driver s (fun _ => True) (promote node driver emit st) s := by
  have hvoted : ∀ t, Voted s t → Inv node driver t ∧ Grows s t := fun t ht => ⟨h.voted ht, ht.grows⟩
  simp only [WpKeeps, promote, wp_bind, wp_get, wp_runIf]
  refine wp_mono (wp_promoteVotes _ _) (fun modified t ht => ?_) fun e t ht => ⟨ht.1, hvoted t ht.2⟩
  obtain ⟨ht, hmodified⟩ := ht
  have hall : ∀ a ∈ t.mAccepted.toList, a ∈ t.mAccepted := fun a => Std.ExtTreeSet.mem_toList.mp
  refine wp_mono (wp_promoteAccepted _ _ hall) (fun newCandidates u hu => ?_) fun _ _ h => h.elim
  have htu := hu.1.grows
  have hu := ht.trans hu.1
  refine wp_mono (wp_takeLeaderVote _) (fun tookVote v hv => ?_) fun e v hv =>
    ⟨hv.1, hvoted v (hu.trans hv.2)⟩
  obtain ⟨hv, htook⟩ := hv
  have hcandidate : ∀ w, Inv node driver w ∧ Grows s w →
      (newCandidates = true → WpKeeps node driver s (fun _ => True) (newCandidate driver) w) ∧
        (¬ newCandidates = true → True ∧ Inv node driver w ∧ Grows s w) := by
    refine fun w hw => ⟨fun _ => ?_, fun _ => ⟨trivial, hw⟩⟩
    refine wp_mono wp_newCandidate (fun _ x hx => ?_) fun _ _ h => h.elim
    exact ⟨trivial, hw.1.voted hx, hw.2.trans hx.grows⟩
  refine ⟨fun hsay => ?_, fun _ => hcandidate v (hvoted v (hu.trans hv))⟩
  have hext : Extended s v := by
    rcases hsay with hsay | hsay
    · exact ((hmodified hsay).resolve_left (by simp)).trans_right (htu.trans hv.grows)
    · exact ((htook hsay).resolve_left (by simp)).trans_left hu.grows
  exact wp_mono (hemit v (hu.trans hv) hext) (fun _ w hw => hcandidate w hw.2) fun _ _ h => h

/-- **Processing an envelope** keeps the invariant. The statement that the node has just made is
valid. -/
theorem wp_processEnvelope (fuel : ℕ) {env : Envelope} (h : Inv node driver s)
    (henv : env.statement.nodeID ≠ node.nodeID ∨
      env = ownEnvelope node driver s.mVotes s.mAccepted ∧ Ready node s) :
    WpKeeps node driver s
      (fun res => env = ownEnvelope node driver s.mVotes s.mAccepted → res = .VALID)
      (processEnvelope node driver fuel env) s := by
  induction fuel generalizing s env with
  | zero => exact ⟨by simp, h, .refl s⟩
  | succ fuel ih =>
    have hown : env = ownEnvelope node driver s.mVotes s.mAccepted → Ready node s := by
      rintro rfl
      exact henv.elim (fun hne => absurd rfl hne) And.right
    have hrecorded : Inv node driver { s with
        mLatestNominations := s.mLatestNominations.insert env.statement.nodeID env } := by
      rcases henv with hne | ⟨rfl, -⟩
      · exact h.recordForeign hne
      · exact h.recordOwn
    have hgrows : Grows s { s with
        mLatestNominations := s.mLatestNominations.insert env.statement.nodeID env } :=
      ⟨.refl _, .refl _, .refl _⟩
    simp only [WpKeeps, processEnvelope, recordEnvelope, wp_bind, wp_get, wp_ite, wp_pure, wp_modify,
      wp_runIf]
    refine ⟨fun hold => ⟨fun heq => ?_, h, .refl s⟩, fun _ => ?_⟩
    · subst heq
      have hnewer := isNewerStatementFor_own h (hown rfl)
      rw [show (ownEnvelope node driver s.mVotes s.mAccepted).statement.nodeID = node.nodeID from rfl,
        hnewer] at hold
      cases hold
    refine wp_mono (wp_isSane driver env) (fun sane t ht => ?_) fun e t ht => ?_
    rotate_left
    · obtain ⟨hne, rfl⟩ := ht
      exact ⟨hne, h, .refl _⟩
    obtain ⟨rfl, hsane⟩ := ht
    refine ⟨fun hinsane => ⟨fun heq => ?_, h, .refl _⟩, fun _ => ⟨fun _ => ?_, fun _ => ?_⟩⟩
    · rw [hsane _ _ (hown heq).nonempty heq] at hinsane
      cases hinsane
    · have hpromote := wp_promote env.statement hrecorded fun u hu hext =>
        wp_emitNomination (wp_mono (ih (hrecorded.voted hu) (Or.inr ⟨rfl, hrecorded.ready hu hext⟩))
          (fun _ _ h => ⟨h.1 rfl, h.2⟩) fun _ _ h => h) (hrecorded.voted hu)
          (hrecorded.ready hu hext) hu.grows
      exact wp_mono hpromote (fun _ u hu => ⟨fun _ => trivial, hu.2.1, hgrows.trans hu.2.2⟩)
        fun _ u hu => ⟨hu.1, hu.2.1, hgrows.trans hu.2.2⟩
    · exact ⟨fun _ => trivial, hrecorded, hgrows⟩

/-! ## Runs -/

theorem wp_nominate (fuel : ℕ) (value previousValue : Value) (timedout : Bool)
    (h : Inv node driver s) :
    WpKeeps node driver s (fun _ => True) (nominate node driver fuel value previousValue timedout)
      s := by
  have hvoted : ∀ t, Voted s t → Inv node driver t ∧ Grows s t := fun t ht => ⟨h.voted ht, ht.grows⟩
  have hsay : ∀ t (updated : Bool), Voted s t → (updated = true → Extended s t) →
      (updated = true → WpKeeps node driver s (fun _ => True)
        (emitNomination node driver (processEnvelope node driver fuel)) t) ∧
      (¬ updated = true → True ∧ Inv node driver t ∧ Grows s t) := by
    refine fun t updated ht hext => ⟨fun hup => ?_, fun _ => ⟨trivial, hvoted t ht⟩⟩
    have hready := h.ready ht (hext hup)
    have hprocess := wp_processEnvelope fuel (h.voted ht) (Or.inr ⟨rfl, hready⟩)
    exact wp_emitNomination (wp_mono hprocess (fun _ _ h => ⟨h.1 rfl, h.2⟩) fun _ _ h => h)
      (h.voted ht) hready ht.grows
  simp only [WpKeeps, nominate, wp_bind, wp_get, wp_ite, wp_pure, wp_set, wp_runIf]
  refine ⟨fun _ => ⟨trivial, h, .refl s⟩, fun _ => ?_⟩
  have hround : Voted s { s with
      mNominationStarted := true
      mPreviousValue := previousValue
      mRoundNumber := s.mRoundNumber + 1 } := .of_eq rfl rfl rfl rfl rfl rfl
  refine wp_mono wp_updateRoundLeaders (fun _ t ht => ?_) fun e t ht =>
    ⟨ht.1, hvoted t (hround.trans ht.2)⟩
  have ht : Voted s t := hround.trans ht
  refine wp_mono (wp_takeVotes value) (fun updated u hu => ?_) fun e u hu =>
    ⟨hu.1, hvoted u (ht.trans hu.2)⟩
  refine hsay u updated (ht.trans hu.1) fun hup => ?_
  exact ((hu.2 hup).resolve_left (by simp)).trans_left ht.grows

/-- The envelopes of the node itself do not come back from the network: `recvSCPEnvelope` skips
them. -/
def Input.Foreign (node : Node) : Input → Prop
  | .envelope env => env.statement.nodeID ≠ node.nodeID
  | _ => True

theorem wp_step (fuel : ℕ) {i : Input} (hi : i.Foreign node) (h : Inv node driver s) :
    WpKeeps node driver s (fun _ => True) (step node driver fuel i) s := by
  cases i with
  | envelope env =>
    simp only [WpKeeps, step, wp_bind, wp_pure]
    exact wp_mono (wp_processEnvelope fuel h (Or.inl hi)) (fun _ _ h => ⟨trivial, h.2⟩) fun _ _ h => h
  | nominate value previousValue =>
    simp only [WpKeeps, step, wp_bind, wp_pure]
    exact wp_nominate fuel value previousValue false h
  | timeout value previousValue =>
    simp only [WpKeeps, step, wp_bind, wp_pure]
    exact wp_nominate fuel value previousValue true h
  | stopNomination =>
    have hs : Voted s { s with mNominationStarted := false } := .of_eq rfl rfl rfl rfl rfl rfl
    exact ⟨trivial, h.voted hs, hs.grows⟩
  | setFullyValidated fullyValidated =>
    have hs : Voted s { s with mFullyValidated := fullyValidated } := .of_eq rfl rfl rfl rfl rfl rfl
    exact ⟨trivial, h.voted hs, hs.grows⟩

theorem wp_steps (fuel : ℕ) {inputs : List Input} (hinputs : ∀ i ∈ inputs, i.Foreign node)
    (h : Inv node driver s) :
    WpKeeps node driver s (fun _ => True) (runInputs (step node driver fuel) inputs) s := by
  have hrun : wp (runInputs (step node driver fuel) inputs)
      (fun _ t => Inv node driver t ∧ Grows s t)
      (fun e t => e ≠ .badState ∧ Inv node driver t ∧ Grows s t) s := by
    refine wp_runInputs ⟨h, .refl s⟩ ?_
    intro pre i post t heq _ ht
    have hi : i.Foreign node := hinputs i (by simp [heq])
    exact wp_mono (wp_step fuel hi ht.1) (fun _ _ h => ⟨h.2.1, ht.2.trans h.2.2⟩)
      fun _ _ h => ⟨h.1, h.2.1, ht.2.trans h.2.2⟩
  exact wp_mono hrun (fun _ _ h => ⟨trivial, h⟩) fun _ _ h => h

/-- What is restored is below the sets, whatever was restored before. -/
theorem wp_setStateFromEnvelope {env : Envelope} (henv : Restorable env) (h : Inv node driver s)
    (hemitted : s.emitted = []) :
    wp (setStateFromEnvelope node env) (fun _ s' => Inv node driver s' ∧ s'.emitted = [])
      (fun e s' => e ≠ .badState ∧ Inv node driver s' ∧ s'.emitted = []) s := by
  obtain ⟨V, A, hsays, hincluded⟩ := henv
  simp only [setStateFromEnvelope, recordEnvelope, wp_runIf, wp_bind, wp_get, wp_ite, wp_throw,
    wp_modify, hsays.1, hsays.2]
  refine ⟨fun hown => ⟨fun _ => ⟨by simp, h, hemitted⟩, fun _ => ⟨?_, hemitted⟩⟩, fun _ =>
    ⟨h, hemitted⟩⟩
  have hmem : ∀ (W X : ValueSet) v, v ∈ W.insertMany X.toList ↔ v ∈ W ∨ v ∈ X := by
    intro W X v
    rw [Std.ExtTreeSet.mem_insertMany_list, List.contains_iff_mem, Std.ExtTreeSet.mem_toList]
  have hbelow : Below env (s.mVotes.insertMany V.toList) (s.mAccepted.insertMany A.toList) :=
    ⟨V, A, hsays, fun v hv => (hmem _ _ v).mpr (Or.inr hv), fun v hv => (hmem _ _ v).mpr (Or.inr hv)⟩
  refine ⟨⟨fun v hv => ?_, fun v hv => ?_⟩, fun e he => ?_, fun e he => ?_, ?_, ?_⟩
  · exact (hmem _ _ v).mpr (Or.inl (h.included.candidates v hv))
  · exact (hmem _ _ v).mpr (((hmem _ _ v).mp hv).imp (h.included.accepted v) (hincluded v))
  · rw [hown.1, Std.ExtTreeMap.getElem?_insert_self, Option.some.injEq] at he
    rwa [← he]
  · rw [Option.some.injEq] at he
    rw [← he]
    exact ⟨hbelow, V, A, hsays, hincluded⟩
  · rw [hemitted]
    exact fun _ hmem => absurd hmem List.not_mem_nil
  · rw [hemitted]
    exact List.Pairwise.nil

/-- What is said of the node at every moment of a run. -/
structure Sound (node : Node) (s : State) : Prop where
  included : Included s
  /-- what the node emits is sane -/
  sane : ∀ env ∈ s.emitted, isSane node env.statement s = .ok true s
  /-- and newer than all it emitted before -/
  newer : s.emitted.Pairwise fun env env' =>
    isNewerStatement env.statement.nominate env'.statement.nominate = true
  /-- what it would save can be restored -/
  restorable : ∀ env, s.mLastEnvelope = some env → Restorable env

theorem Inv.sound (h : Inv node driver s) : Sound node s := by
  refine ⟨h.included, fun env henv => ?_, h.ordered, fun env henv => (h.last env henv).2⟩
  obtain ⟨V, A, rfl, hne, -⟩ := h.emitted env henv
  exact isSane_own hne s

theorem inv_freshNomination : Inv node driver (freshNomination node) where
  included := ⟨fun _ h => h, fun _ h => h⟩
  latest := nofun
  last := nofun
  emitted := nofun
  ordered := List.Pairwise.nil

theorem wp_restore (driver : Driver) {restored : List Envelope} (h : ∀ env ∈ restored, Restorable env) :
    wp (runInputs (setStateFromEnvelope node) restored) (fun _ s => Inv node driver s)
      (fun e s => e ≠ .badState ∧ Inv node driver s) (freshNomination node) := by
  have hrun : wp (runInputs (setStateFromEnvelope node) restored)
      (fun _ t => Inv node driver t ∧ t.emitted = [])
      (fun e t => e ≠ .badState ∧ Inv node driver t ∧ t.emitted = []) (freshNomination node) := by
    refine wp_runInputs ⟨inv_freshNomination, rfl⟩ ?_
    intro pre env post t heq _ ht
    exact wp_setStateFromEnvelope (h env (by simp [heq])) ht.1 ht.2
  exact wp_mono hrun (fun _ _ h => h.1) fun _ _ h => ⟨h.1, h.2.1⟩

/-- **Nomination.** However long the node has run, on whatever envelopes, nominations, timeouts and
answers of the driver: what is said of it holds, the sets only grow from there on, and it never moves to
a bad state. -/
theorem nomination_sound (node : Node) (driver : Driver) (fuel : ℕ) (restored : List Envelope)
    (pre post : List Input) (hrestored : ∀ env ∈ restored, Restorable env)
    (hinputs : ∀ i ∈ pre ++ post, i.Foreign node) :
    wp (run node driver fuel restored pre)
      (fun _ s => Sound node s ∧
        wp (runInputs (step node driver fuel) post) (fun _ s' => Sound node s' ∧ Grows s s')
          (fun e s' => e ≠ .badState ∧ Sound node s' ∧ Grows s s') s)
      (fun e s => e ≠ .badState ∧ Sound node s) (freshNomination node) := by
  have hpre : ∀ i ∈ pre, i.Foreign node := fun i hi => hinputs i (List.mem_append_left _ hi)
  have hpost : ∀ i ∈ post, i.Foreign node := fun i hi => hinputs i (List.mem_append_right _ hi)
  rw [run, wp_bind]
  refine wp_mono (wp_restore driver hrestored) (fun _ s hs => ?_) fun e s hs => ⟨hs.1, hs.2.sound⟩
  refine wp_mono (wp_steps fuel hpre hs) (fun _ t ht => ?_) fun e t ht => ⟨ht.1, ht.2.1.sound⟩
  refine ⟨ht.2.1.sound, ?_⟩
  exact wp_mono (wp_steps fuel hpost ht.2.1) (fun _ u hu => ⟨hu.2.1.sound, hu.2.2⟩) fun e u hu =>
    ⟨hu.1, hu.2.1.sound, hu.2.2⟩

/-- A node that trusts itself and another one. -/
def pairNode : Node where
  nodeID := 0
  isValidator := true
  qSet := .mk 2 [0, 1] []
  qSetHash := 7
  slotIndex := 0
  getQSet h := if h = 7 then some (.mk 2 [0, 1] []) else none
  validateValue _ _ := .kFullyValidatedValue
  signEnvelope _ := 0
  qSet_sane := by decide
  getQSet_qSetHash := rfl

/-- Every value is valid, and the node itself leads. -/
def pairDriver : Driver where
  validateValue _ _ := .kFullyValidatedValue
  extractValidValue _ _ := []
  computeHashNode _ isPriority _ nodeID := if isPriority then 2 - nodeID else 0
  computeValueHash _ _ _ := 1
  combineCandidates _ candidates := candidates.toList.headD []
  signEnvelope _ := 0
  bumpState _ _ := (false, true)

/-- What a node votes for and has accepted. -/
def pairEnvelope (nodeID : NodeID) (votes accepted : List Value) : Envelope :=
  ⟨⟨nodeID, 0, ⟨7, votes, accepted⟩⟩, 0⟩

/-- The node nominates a value, and the other one votes for it. -/
def pairInputs : List Input := [.nominate [5] [1], .envelope (pairEnvelope 1 [[5]] [])]

/-- The node has restored another vote. It emits two statements, and then the other node has accepted
the value too. -/
theorem nomination_sound_pair :
    returns (run pairNode pairDriver 9 [pairEnvelope 0 [[4]] []] pairInputs)
      (fun _ s => s.emitted.length = 2 ∧ s.mVotes.toList = [[4], [5]] ∧ s.mAccepted.toList = [[5]])
      (freshNomination pairNode) = true ∧
    wp (run pairNode pairDriver 9 [pairEnvelope 0 [[4]] []] pairInputs)
      (fun _ s => Sound pairNode s ∧
        wp (runInputs (step pairNode pairDriver 9) [.envelope (pairEnvelope 1 [[5]] [[5]])])
          (fun _ s' => Sound pairNode s' ∧ Grows s s')
          (fun e s' => e ≠ .badState ∧ Sound pairNode s' ∧ Grows s s') s)
      (fun e s => e ≠ .badState ∧ Sound pairNode s) (freshNomination pairNode) := by
  refine ⟨by decide +kernel, ?_⟩
  refine nomination_sound pairNode pairDriver 9 _ _ _ ?_ ?_
  · intro env henv
    rw [List.mem_singleton.mp henv]
    exact ⟨{[4]}, ∅, ⟨by decide +kernel, by decide +kernel⟩, fun v hv => by simp at hv⟩
  · simp [pairInputs, pairEnvelope, pairNode, Input.Foreign]

end SmartCore.SCP.Nomination
