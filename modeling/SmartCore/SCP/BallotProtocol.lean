import SmartCore.SCP.Slot

/-!
# The ballot protocol

`BallotProtocol` as the source runs it: an envelope is recorded, and `advanceSlot` then tries
the steps of the protocol in order, each with the envelope as a hint:

1. `attemptPreparedAccept`: accept a ballot as prepared (raise `p` or `p'`),
2. `attemptPreparedConfirmed`: confirm a ballot as prepared (raise `h`, maybe set `c`),
3. `attemptAcceptCommit`: accept a commit (enter `CONFIRM`, or raise `h` there),
4. `attemptConfirmCommit`: confirm a commit (enter `EXTERNALIZE`), and
5. `attemptBump`: catch up with the counters of a v-blocking set.

A step that changes the state emits the node's own statement, which is processed like any other
envelope and so runs `advanceSlot` again inside the first. That recursion is the argument `self`
of the functions below; `processEnvelope` ties the knot. It is bounded by
`MAX_ADVANCE_SLOT_RECURSION`, which is also the depth the model starts with.
-/

namespace SmartCore.SCP

/-- The most transitions that can occur from processing one message. -/
def MAX_ADVANCE_SLOT_RECURSION : ℕ := 50

inductive EnvelopeState where
  | INVALID
  | VALID
deriving DecidableEq, Repr

/-! ## The current ballot -/

def startBallotProtocolTimer : SlotM Unit := do
  let s ← get
  let b ← deref s.mCurrentBallot (.nullDeref .timer)
  record (.setupTimer b.counter)

def bumpToBallot (ballot : SCPBallot) (check : Bool) : SlotM Unit := do
  let s ← get
  -- `bumpToBallot` should be never called once we committed
  require (decide (s.mPhase ≠ .EXTERNALIZE)) (.dbgAssert .bumpAfterCommit)
  require (!check || s.mCurrentBallot.all fun b => decide (0 ≤ compareBallots ballot b))
    (.dbgAssert .bumpBackwards)
  set { s with mCurrentBallot := some ballot, mHeardFromQuorum := false }
  if s.mCurrentBallot = some ballot then pure () else startBallotProtocolTimer

def updateCurrentIfNeeded : SlotM Unit := do
  let s ← get
  let h ← deref s.mHighBallot (.nullDeref .updateCurrentIfNeeded)
  if s.mCurrentBallot.all fun b => decide (compareBallots b h < 0) then bumpToBallot h true
  else pure ()

/-! ## Statements of the node itself -/

/-- The pledges of the current state; `createEnvelope` adds the node and the slot. -/
def Node.createStatement (node : Node) (type : Phase) : SlotM Pledges := do
  let s ← get
  require (checkInvariants s.toBallotProtocol) .checkInvariants
  match type with
  | .PREPARE =>
    pure (.prepare
      { quorumSetHash := node.qSetHash
        ballot := s.mCurrentBallot.getD {}
        prepared := s.mPrepared
        preparedPrime := s.mPreparedPrime
        nC := (s.mCommit.map SCPBallot.counter).getD 0
        nH := (s.mHighBallot.map SCPBallot.counter).getD 0 })
  | .CONFIRM => do
    let c ← deref s.mCommit (.nullDeref .createStatement)
    let h ← deref s.mHighBallot (.nullDeref .createStatement)
    require (areBallotsLessAndCompatible c h) (.dbgAssert .commitAboveHigh)
    let b ← deref s.mCurrentBallot (.nullDeref .createStatement)
    let p ← deref s.mPrepared (.nullDeref .createStatement)
    pure (.confirm
      { ballot := b
        nPrepared := p.counter
        nCommit := c.counter
        nH := h.counter
        quorumSetHash := node.qSetHash })
  | .EXTERNALIZE => do
    let c ← deref s.mCommit (.nullDeref .createStatement)
    let h ← deref s.mHighBallot (.nullDeref .createStatement)
    require (areBallotsLessAndCompatible c h) (.dbgAssert .commitAboveHigh)
    pure (.externalize { commit := c, nH := h.counter, commitQuorumSetHash := node.qSetHash })

def Node.createEnvelope (node : Node) (pledges : Pledges) : SCPEnvelope :=
  let statement : SCPStatement := ⟨node.nodeID, node.slotIndex, pledges⟩
  ⟨statement, node.signEnvelope statement⟩

/-- Emit the last envelope if it was not emitted yet; a no-op inside `advanceSlot`, which
consolidates all messages sent. -/
def sendLatestEnvelope : SlotM Unit := do
  let s ← get
  match s.mLastEnvelope with
  | none => pure ()
  | some last =>
    if s.mCurrentMessageLevel = 0 ∧ s.mFullyValidated = true ∧
        s.mLastEnvelopeEmit ≠ some last then do
      set { s with mLastEnvelopeEmit := some last }
      record (.emitEnvelope last)
    else pure ()

/-- How the node's own envelopes are processed. -/
abbrev SelfProcess := SCPEnvelope → SlotM EnvelopeState

def Node.emitCurrentStateStatement (node : Node) (self : SelfProcess) : SlotM Unit := do
  let s ← get
  let pledges ← node.createStatement s.mPhase
  let envelope := node.createEnvelope pledges
  record (.emitCurrentStateStatement s.toBallotProtocol envelope)
  let canEmit := s.mCurrentBallot.isSome
  -- if we generate the same envelope, don't process it again
  if s.mLatestEnvelopes[node.nodeID]? = some envelope then pure ()
  else do
    let res ← self envelope
    if res = .VALID then do
      let s' ← get
      if canEmit = true ∧ s'.mLastEnvelope.all
          (fun last => isNewerStatement last.statement envelope.statement) then do
        set { s' with mLastEnvelope := some envelope }
        sendLatestEnvelope
      else pure ()
    else throw .badState

/-! ## Bumping -/

/-- Updates the current ballot, enforcing invariants. -/
def updateCurrentValue (ballot : SCPBallot) : SlotM Bool := do
  let s ← get
  if s.mPhase = .EXTERNALIZE then pure false
  else
    match s.mCurrentBallot with
    | none => do
      bumpToBallot ballot true
      let t ← get
      require (checkInvariants t.toBallotProtocol) .checkInvariants
      pure true
    | some b => do
      require (decide (compareBallots b ballot ≤ 0)) (.dbgAssert .updateBackwards)
      if s.mCommit.any fun c => !areBallotsCompatible c ballot then pure false
      else if compareBallots b ballot < 0 then do
        bumpToBallot ballot true
        let t ← get
        require (checkInvariants t.toBallotProtocol) .checkInvariants
        pure true
      else if 0 < compareBallots b ballot then pure false
      else do
        require (checkInvariants s.toBallotProtocol) .checkInvariants
        pure false

/-- `bumpState(value, n)`. -/
def Node.bumpStateTo (node : Node) (self : SelfProcess) (value : Value) (n : Uint32) :
    SlotM Bool := do
  let s ← get
  if s.mPhase = .EXTERNALIZE then pure false
  else do
    -- can only bump the counter if we committed to something already
    let newb : SCPBallot := ⟨n, (s.mHighBallot.map SCPBallot.value).getD value⟩
    let updated ← updateCurrentValue newb
    if updated then do
      record (.startedBallotProtocol newb)
      node.emitCurrentStateStatement self
      pure true
    else pure false

/-- `bumpState(value, force)`. The counter is incremented in `uint32`. -/
def Node.bumpState (node : Node) (self : SelfProcess) (value : Value) (force : Bool) :
    SlotM Bool := do
  let s ← get
  if force = false ∧ s.mCurrentBallot.isSome = true then pure false
  else node.bumpStateTo self value ((s.mCurrentBallot.map fun b => b.counter + 1).getD 1)

def Node.abandonBallot (node : Node) (self : SelfProcess) (n : Uint32) : SlotM Bool := do
  let s ← get
  let v :=
    if s.mLatestCompositeCandidate = [] then (s.mCurrentBallot.map SCPBallot.value).getD []
    else s.mLatestCompositeCandidate
  if v = [] then pure false
  else if n = 0 then node.bumpState self v true
  else node.bumpStateTo self v n

def Node.ballotProtocolTimerExpired (node : Node) (self : SelfProcess) : SlotM Unit := do
  let s ← get
  -- don't abandon the ballot until we have heard from a slice
  if s.mHeardFromQuorum then do
    let _ ← node.abandonBallot self 0
  else startBallotProtocolTimer

/-! ## Step 1: accept prepared -/

/-- The ballots a hint draws attention to. -/
def hintBallots (hint : SCPStatement) : List SCPBallot :=
  match hint.pledges with
  | .prepare p => [p.ballot] ++ p.prepared.toList ++ p.preparedPrime.toList
  | .confirm c => [⟨c.nPrepared, c.ballot.value⟩, ⟨UINT32_MAX, c.ballot.value⟩]
  | .externalize e => [⟨UINT32_MAX, e.commit.value⟩]

/-- The ballots below `topVote` that the node of `st` may have prepared. -/
def candidatesFrom (topVote : SCPBallot) (st : SCPStatement) : List SCPBallot :=
  match st.pledges with
  | .prepare p =>
    ([p.ballot] ++ p.prepared.toList ++ p.preparedPrime.toList).filter
      fun ballot => areBallotsLessAndCompatible ballot topVote
  | .confirm c =>
    if areBallotsCompatible topVote c.ballot then
      if c.nPrepared < topVote.counter then [topVote, ⟨c.nPrepared, topVote.value⟩]
      else [topVote]
    else []
  | .externalize e => if areBallotsCompatible topVote e.commit then [topVote] else []

/-- The ballots to look at, given a hint. -/
def getPrepareCandidates (envs : EnvelopeMap) (hint : SCPStatement) : Std.ExtTreeSet SCPBallot :=
  Std.ExtTreeSet.ofList
    ((Std.ExtTreeSet.ofList (hintBallots hint)).toList.reverse.flatMap fun topVote =>
      envs.toList.flatMap fun e => candidatesFrom topVote e.2.statement)

/-- The candidates from the highest to the lowest. -/
def candidatesDesc (envs : EnvelopeMap) (hint : SCPStatement) : List SCPBallot :=
  (getPrepareCandidates envs hint).toList.reverse

/-- The new values of `p` and `p'`, and whether anything changed. -/
def setPrepared (ballot : SCPBallot) (p p' : Option SCPBallot) :
    Option SCPBallot × Option SCPBallot × Bool :=
  match p with
  | none => (some ballot, p', true)
  | some prepared =>
    let comp := compareBallots prepared ballot
    if comp < 0 then
      (some ballot, if areBallotsCompatible prepared ballot then p' else some prepared, true)
    else if 0 < comp then
      -- check if we should update only p'
      if p'.all fun preparedPrime => decide (compareBallots preparedPrime ballot < 0) then
        (p, some ballot, true)
      else (p, p', false)
    else (p, p', false)

def Node.setPreparedAccept (node : Node) (self : SelfProcess) (ballot : SCPBallot) :
    SlotM Bool := do
  let s ← get
  let (p, p', prepared) := setPrepared ballot s.mPrepared s.mPreparedPrime
  set { s with mPrepared := p, mPreparedPrime := p' }
  -- check if we also need to clear 'c'
  let clear := s.mCommit.isSome && s.mHighBallot.any fun h =>
    (p.any fun prepared => areBallotsLessAndIncompatible h prepared) ||
    (p'.any fun preparedPrime => areBallotsLessAndIncompatible h preparedPrime)
  require (!clear || decide (s.mPhase = .PREPARE)) (.dbgAssert .clearCommitAfterPrepare)
  modify fun t => { t with mCommit := if clear then none else t.mCommit }
  let didWork := prepared || clear
  if didWork then do
    record (.acceptedBallotPrepared ballot)
    node.emitCurrentStateStatement self
    pure true
  else pure false

/-- The loop of `attemptPreparedAccept` over the candidates, starting with the highest. -/
def Node.acceptLoop (node : Node) (self : SelfProcess) : List SCPBallot → SlotM Bool
  | [] => pure false
  | ballot :: rest => do
    let s ← get
    if s.mPhase = .CONFIRM then do
      let p ← deref s.mPrepared (.nullDeref .attemptPreparedAccept)
      -- only consider the ballot if it may help us increase p (note: at this point, p ~ c)
      if !areBallotsLessAndCompatible p ballot then node.acceptLoop self rest
      else do
        let c ← deref s.mCommit (.nullDeref .attemptPreparedAccept)
        require (areBallotsCompatible c ballot) (.dbgAssert .acceptedIncompatible)
        tryBallot s ballot (node.acceptLoop self rest)
    else tryBallot s ballot (node.acceptLoop self rest)
where
  /-- The part of the loop's body after the check for `CONFIRM`. -/
  tryBallot (s : Slot) (ballot : SCPBallot) (next : SlotM Bool) : SlotM Bool :=
    -- if ballot <= p' ballot is neither a candidate for p nor p'
    if s.mPreparedPrime.any fun p' => decide (compareBallots ballot p' ≤ 0) then next
    -- if ballot is already covered by p, skip; otherwise there is a chance it increases p'
    else if s.mPrepared.any fun p => areBallotsLessAndCompatible ballot p then next
    else if node.federatedAccept (votesToPrepare ballot) (hasPreparedBallot ballot)
        s.mLatestEnvelopes then
      node.setPreparedAccept self ballot
    else next

def Node.attemptPreparedAccept (node : Node) (self : SelfProcess) (hint : SCPStatement) :
    SlotM Bool := do
  let s ← get
  if s.mPhase = .EXTERNALIZE then pure false
  else node.acceptLoop self (candidatesDesc s.mLatestEnvelopes hint)

/-! ## Step 2: confirm prepared -/

/-- Look for the highest ratified candidate above `h`; also returns the candidates below it. -/
def findNewH (h : Option SCPBallot) (ratified : SCPBallot → Bool) :
    List SCPBallot → Option (SCPBallot × List SCPBallot)
  | [] => none
  | ballot :: rest =>
    -- only consider it if we can potentially raise h
    if h.any fun h => decide (0 ≤ compareBallots h ballot) then none
    else if ratified ballot then some (ballot, rest)
    else findNewH h ratified rest

/-- Follow the ratified candidates down to `b`. -/
def findNewC (b : SCPBallot) (ratified : SCPBallot → Bool) : List SCPBallot → SCPBallot → SCPBallot
  | [], newC => newC
  | ballot :: rest, newC =>
    if compareBallots ballot b < 0 then newC
    else if ratified ballot then findNewC b ratified rest ballot
    else newC

/-- Has a quorum prepared the ballot? -/
def Node.isRatified (node : Node) (s : BallotProtocol) (ballot : SCPBallot) : Bool :=
  node.federatedRatify (hasPreparedBallot ballot) s.mLatestEnvelopes

/-- Look for newC (left as 0 if no update): step (3) from the paper. The search continues where
the one for `newH` left off. -/
def Node.lookForNewC (node : Node) (s : BallotProtocol) (newH : SCPBallot)
    (below : List SCPBallot) : SCPBallot :=
  if s.mCommit = none ∧
      (s.mPrepared.all fun p => !areBallotsLessAndIncompatible newH p) = true ∧
      (s.mPreparedPrime.all fun p' => !areBallotsLessAndIncompatible newH p') = true then
    findNewC (s.mCurrentBallot.getD {}) (node.isRatified s) (newH :: below) {}
  else {}

def Node.setPreparedConfirmed (node : Node) (self : SelfProcess) (newC newH : SCPBallot) :
    SlotM Bool := do
  let s ← get
  let raise := s.mHighBallot.all fun h => decide (0 < compareBallots newH h)
  set { s with mHighBallot := if raise then some newH else s.mHighBallot }
  let setC := decide (newC.counter ≠ 0)
  require (!setC || s.mCommit.isNone) (.dbgAssert .commitAlreadySet)
  modify fun t => { t with mCommit := if setC then some newC else t.mCommit }
  if raise || setC then do
    updateCurrentIfNeeded
    record (.confirmedBallotPrepared newH)
    node.emitCurrentStateStatement self
    pure true
  else pure false

def Node.attemptPreparedConfirmed (node : Node) (self : SelfProcess) (hint : SCPStatement) :
    SlotM Bool := do
  let s ← get
  record (.attemptPreparedConfirmed s.toBallotProtocol hint)
  if s.mPhase ≠ .PREPARE then pure false
  -- check if we could accept this ballot as prepared
  else if s.mPrepared = none then pure false
  else
    match findNewH s.mHighBallot (node.isRatified s.toBallotProtocol)
        (candidatesDesc s.mLatestEnvelopes hint) with
    | none => pure false
    | some (newH, below) =>
      node.setPreparedConfirmed self (node.lookForNewC s.toBallotProtocol newH below) newH

/-! ## Step 3: accept commit -/

/-- Extend the interval over the boundaries, starting from the top. -/
def findExtendedInterval (pred : Interval → Bool) : List Uint32 → Interval → Interval
  | [], candidate => candidate
  | b :: boundaries, candidate =>
    if candidate.1 = 0 then
      -- first, find the high bound
      if pred (b, b) then findExtendedInterval pred boundaries (b, b)
      else findExtendedInterval pred boundaries candidate
    else if candidate.2 < b then findExtendedInterval pred boundaries candidate
    else if pred (b, candidate.2) then findExtendedInterval pred boundaries (b, candidate.2)
    -- could not extend further
    else candidate

/-- The counters a statement compatible with `ballot` mentions for its commit. -/
def commitBoundaries (ballot : SCPBallot) (st : SCPStatement) : List Uint32 :=
  match st.pledges with
  | .prepare p =>
    if areBallotsCompatible ballot p.ballot ∧ p.nC ≠ 0 then [p.nC, p.nH] else []
  | .confirm c => if areBallotsCompatible ballot c.ballot then [c.nCommit, c.nH] else []
  | .externalize e =>
    if areBallotsCompatible ballot e.commit then [e.commit.counter, e.nH, UINT32_MAX] else []

def getCommitBoundariesFromStatements (envs : EnvelopeMap) (ballot : SCPBallot) :
    Std.ExtTreeSet Uint32 :=
  Std.ExtTreeSet.ofList (envs.toList.flatMap fun e => commitBoundaries ballot e.2.statement)

/-- The ballot a hint may lead to committing. -/
def commitBallot (hint : SCPStatement) : Option SCPBallot :=
  match hint.pledges with
  | .prepare p => if p.nC ≠ 0 then some ⟨p.nH, p.ballot.value⟩ else none
  | .confirm c => some ⟨c.nH, c.ballot.value⟩
  | .externalize e => some ⟨e.nH, e.commit.value⟩

def Node.setAcceptCommit (node : Node) (self : SelfProcess) (c h : SCPBallot) : SlotM Bool := do
  let s ← get
  let changed := decide (s.mHighBallot ≠ some h ∨ s.mCommit ≠ some c)
  set { s with mCommit := some c, mHighBallot := some h }
  if s.mPhase = .PREPARE then do
    modify fun t => { t with mPhase := .CONFIRM }
    if s.mCurrentBallot.any fun b => !areBallotsLessAndCompatible h b then bumpToBallot h false
    else pure ()
    modify fun t => { t with mPreparedPrime := none }
    finish
  else if changed then finish
  else pure false
where
  /-- The `didWork` branch. -/
  finish : SlotM Bool := do
    updateCurrentIfNeeded
    record (.acceptedCommit h)
    node.emitCurrentStateStatement self
    pure true

def Node.attemptAcceptCommit (node : Node) (self : SelfProcess) (hint : SCPStatement) :
    SlotM Bool := do
  let s ← get
  if s.mPhase = .EXTERNALIZE then pure false
  else
    match commitBallot hint with
    | none => pure false
    | some ballot =>
      if s.mPhase = .CONFIRM then do
        let h ← deref s.mHighBallot (.nullDeref .attemptAcceptCommit)
        if !areBallotsCompatible ballot h then pure false
        else search s ballot
      else search s ballot
where
  /-- Look for the high interval and set it. -/
  search (s : Slot) (ballot : SCPBallot) : SlotM Bool :=
    let pred := fun cur =>
      node.federatedAccept (votesToCommit ballot cur) (commitPredicate ballot cur)
        s.mLatestEnvelopes
    -- an empty set of boundaries leaves the candidate at (0, 0)
    let candidate := findExtendedInterval pred
      (getCommitBoundariesFromStatements s.mLatestEnvelopes ballot).toList.reverse (0, 0)
    if candidate.1 ≠ 0 then
      if s.mPhase ≠ .CONFIRM ∨
          (s.mHighBallot.any fun h => decide (h.counter < candidate.2)) = true then
        node.setAcceptCommit self ⟨candidate.1, ballot.value⟩ ⟨candidate.2, ballot.value⟩
      else pure false
    else pure false

/-! ## Step 4: confirm commit -/

def Node.setConfirmCommit (node : Node) (self : SelfProcess) (c h : SCPBallot) : SlotM Bool := do
  modify fun s => { s with mCommit := some c, mHighBallot := some h }
  updateCurrentIfNeeded
  modify fun s => { s with mPhase := .EXTERNALIZE }
  node.emitCurrentStateStatement self
  record .stopNomination
  let s ← get
  let commit ← deref s.mCommit (.nullDeref .externalizedCommit)
  record (.valueExternalized commit.value)
  pure true

def Node.attemptConfirmCommit (node : Node) (self : SelfProcess) (hint : SCPStatement) :
    SlotM Bool := do
  let s ← get
  if s.mPhase ≠ .CONFIRM then pure false
  else
    match s.mHighBallot, s.mCommit with
    | some _, some commit =>
      match hint.pledges with
      | .prepare _ => pure false
      | _ =>
        match commitBallot hint with
        | none => pure false
        | some ballot =>
          if !areBallotsCompatible ballot commit then pure false
          else
            let pred := fun cur =>
              node.federatedRatify (commitPredicate ballot cur) s.mLatestEnvelopes
            let candidate := findExtendedInterval pred
              (getCommitBoundariesFromStatements s.mLatestEnvelopes ballot).toList.reverse (0, 0)
            if candidate.1 ≠ 0 then
              node.setConfirmCommit self ⟨candidate.1, ballot.value⟩ ⟨candidate.2, ballot.value⟩
            else pure false
    | _, _ => pure false

/-! ## Step 5: bump -/

/-- The counter a statement is working on. -/
def statementCounter (st : SCPStatement) : Uint32 :=
  match st.pledges with
  | .prepare p => p.ballot.counter
  | .confirm c => c.ballot.counter
  | .externalize _ => UINT32_MAX

/-- Is the statement ahead of counter `n`? -/
def isAheadOf (n : Uint32) (st : SCPStatement) : Bool :=
  match st.pledges with
  | .prepare p => decide (n < p.ballot.counter)
  | .confirm c => decide (n < c.ballot.counter)
  | .externalize _ => decide (n ≠ UINT32_MAX)

/-- Go through the counters, find the smallest not v-blocking. -/
def Node.bumpLoop (node : Node) (self : SelfProcess) (envs : EnvelopeMap)
    (targetCounter : Uint32) : List Uint32 → SlotM Bool
  | [] => pure false
  | n :: rest =>
    if n < targetCounter then pure false
    else
      let vBlocking := isVBlockingMap node.qSet envs (isAheadOf n)
      if n = targetCounter then
        -- if current counter is not behind, don't do anything
        if !vBlocking then pure false else node.bumpLoop self envs targetCounter rest
      -- move to n
      else if !vBlocking then node.abandonBallot self n
      else node.bumpLoop self envs targetCounter rest

def Node.attemptBump (node : Node) (self : SelfProcess) : SlotM Bool := do
  let s ← get
  if s.mPhase = .EXTERNALIZE then pure false
  else
    let targetCounter := (s.mCurrentBallot.map SCPBallot.counter).getD 0
    let allCounters := Std.ExtTreeSet.ofList
      (targetCounter :: s.mLatestEnvelopes.toList.map fun e => statementCounter e.2.statement)
    node.bumpLoop self s.mLatestEnvelopes targetCounter allCounters.toList

/-- The `do … while (didBump)` loop. A round that bumps raises the current counter to one of
those in the map, so the rounds are bounded by their number; a loop that outlived the bound
would be a transition loop. -/
def Node.bumpRounds (node : Node) (self : SelfProcess) : ℕ → Bool → SlotM Bool
  | 0, _ => throw .maxTransitions
  | rounds + 1, didWork => do
    let didBump ← node.attemptBump self
    if didBump then node.bumpRounds self rounds true else pure didWork

/-! ## Advancing -/

/-- Does the statement show that its node has reached the counter of `b`? -/
def hasReached (b : SCPBallot) (st : SCPStatement) : Bool :=
  match st.pledges with
  | .prepare p => decide (b.counter ≤ p.ballot.counter)
  | _ => true

/-- Notice when a quorum has reached the current ballot. -/
def Node.checkHeardFromQuorum (node : Node) : SlotM Unit := do
  let s ← get
  match s.mCurrentBallot with
  | none => pure ()
  | some b =>
    if s.mHeardFromQuorum = false ∧ isQuorum node.qSet s.mLatestEnvelopes
        node.getQuorumSetFromStatement (hasReached b) = true then do
      set { s with mHeardFromQuorum := true }
      record (.ballotDidHearFromQuorum b)
    else pure ()

/-- The attempts, done in order so that we follow the steps from the white paper in order. -/
def Node.attemptAll (node : Node) (self : SelfProcess) (hint : SCPStatement) : SlotM Bool := do
  let accepted ← node.attemptPreparedAccept self hint
  let confirmed ← node.attemptPreparedConfirmed self hint
  let acceptedCommit ← node.attemptAcceptCommit self hint
  let confirmedCommit ← node.attemptConfirmCommit self hint
  pure (accepted || confirmed || acceptedCommit || confirmedCommit)

/-- Only bump after we're done with everything else. -/
def Node.bumpIfOutermost (node : Node) (self : SelfProcess) (didWork : Bool) : SlotM Bool := do
  let s ← get
  if s.mCurrentMessageLevel = 1 then
    node.bumpRounds self (s.mLatestEnvelopes.size + 2) didWork
  else pure didWork

def Node.advanceSlot (node : Node) (self : SelfProcess) (hint : SCPStatement) : SlotM Unit := do
  modify fun s => { s with mCurrentMessageLevel := s.mCurrentMessageLevel + 1 }
  let s ← get
  require (decide (s.mCurrentMessageLevel < MAX_ADVANCE_SLOT_RECURSION)) .maxTransitions
  node.checkHeardFromQuorum
  let attempted ← node.attemptAll self hint
  let didWork ← node.bumpIfOutermost self attempted
  modify fun s => { s with mCurrentMessageLevel := s.mCurrentMessageLevel - 1 }
  if didWork then sendLatestEnvelope else pure ()

/-- Keep the envelope as the latest of its node. -/
def Slot.recordEnvelope (s : Slot) (env : SCPEnvelope) : Slot :=
  { s with
    mLatestEnvelopes := s.mLatestEnvelopes.insert env.statement.nodeID env
    mStatementsHistory := s.mStatementsHistory ++ [(env.statement, s.mFullyValidated)] }

/-- `processEnvelope`, with the number of nested self envelopes that are still allowed. At zero
`advanceSlot` has already thrown: the message level has reached its maximum. -/
def Node.processEnvelope (node : Node) : ℕ → SCPEnvelope → Bool → SlotM EnvelopeState
  | 0, _, _ => throw .maxTransitions
  | depth + 1, envelope, self => do
    let statement := envelope.statement
    require (decide (statement.slotIndex = node.slotIndex)) (.dbgAssert .slotIndex)
    let _ ← deref (node.getQuorumSetFromStatement statement) (.nullDeref .quorumSet)
    let s ← get
    if !node.isStatementSane statement self then pure .INVALID
    else if !isNewerStatementFor s.mLatestEnvelopes statement.nodeID statement then pure .INVALID
    else do
      record (.validateValues statement)
      let validationRes := node.validateValues s.log.length statement
      if validationRes = .kInvalidValue then pure .INVALID
      else if s.mPhase ≠ .EXTERNALIZE then do
        modify fun s => { s with
          mFullyValidated := if validationRes = .kMaybeValidValue then false
            else s.mFullyValidated }
        modify fun s => s.recordEnvelope envelope
        node.advanceSlot (fun env => node.processEnvelope depth env true) statement
        pure .VALID
      else do
        -- note: this handles also our own messages, in particular our final EXTERNALIZE message
        let commit ← deref s.mCommit (.nullDeref .externalizedCommit)
        if commit.value = (getWorkingBallot statement).value then do
          modify fun s => s.recordEnvelope envelope
          pure .VALID
        else pure .INVALID

/-! ## Runs -/

/-- How a node processes the envelopes it makes itself, from outside `advanceSlot`. -/
def Node.processSelf (node : Node) : SelfProcess :=
  fun env => node.processEnvelope MAX_ADVANCE_SLOT_RECURSION env true

/-- What reaches the ballot protocol of a slot from outside: a verified envelope, a call of
`bumpState`, a new composite candidate from nomination, the ballot timer, `abandonBallot`. -/
inductive Input where
  | envelope (env : SCPEnvelope)
  | bumpState (value : Value) (force : Bool)
  | updatedCandidateValue (value : Value)
  | timerExpired
  | abandonBallot

/-- One input. -/
def Node.step (node : Node) : Input → SlotM Unit
  | .envelope env => do
    let _ ← node.processEnvelope MAX_ADVANCE_SLOT_RECURSION env false
  | .bumpState value force => do
    let _ ← node.bumpState node.processSelf value force
  | .updatedCandidateValue value => do
    modify fun s => { s with mLatestCompositeCandidate := value }
    let _ ← node.bumpState node.processSelf value false
  | .timerExpired => node.ballotProtocolTimerExpired node.processSelf
  | .abandonBallot => do
    let _ ← node.abandonBallot node.processSelf 0

/-- A run of a fresh slot. -/
def Node.run (node : Node) (inputs : List Input) : EStateM.Result Fault Slot Unit :=
  runInputs node.step inputs (freshSlot node)

/-- The slot after a run, whether or not the process is still alive. -/
def Node.slotAfter (node : Node) (inputs : List Input) : Slot :=
  match node.run inputs with
  | .ok _ s => s
  | .error _ s => s

/-- What the process died of, if it did. -/
def Node.faultAfter (node : Node) (inputs : List Input) : Option Fault :=
  match node.run inputs with
  | .ok _ _ => none
  | .error e _ => some e

end SmartCore.SCP
