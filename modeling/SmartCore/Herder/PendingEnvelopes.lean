import Mathlib.Algebra.Group.Nat.Defs
import Mathlib.Data.List.Sort
import SmartCore.Lib.Code

/-!
# Envelopes that wait for what they refer to

An SCP envelope refers to a quorum set and to transaction sets. It is given to SCP only when all of
them are known. Until then it is in `mFetchingEnvelopes`, and in the waiting list of a tracker for
each item that is missing. A tracker asks one peer after the other, whenever its timer fires or a
peer does not have the item. What is known is in two caches of bounded size, which forget the least
recently used item.

When an item arrives, the envelopes that wait for it are received once more. One that has everything
goes to SCP, which may close ledgers and make transaction sets of its own on the spot, and so
receive further items, inside of the loop that receives the first one.
-/

namespace SmartCore.Herder.Pending

/-! ## Data -/

abbrev Hash := ℕ

abbrev NodeID := ℕ

abbrev Peer := ℕ

/-- What is fetched. -/
inductive Kind where
  | qSet
  | txSet
deriving DecidableEq, Repr

abbrev Item := Kind × Hash

/-- An envelope, as far as it is looked at: the transaction set of a value, if it can be decoded.
`contents` is everything else. -/
structure SCPEnvelope where
  nodeID : NodeID
  slotIndex : ℕ
  quorumSetHash : Hash
  values : List (Option Hash)
  contents : ℕ := 0
deriving DecidableEq, Repr

/-- What an envelope refers to. -/
def SCPEnvelope.items (env : SCPEnvelope) : List Item :=
  (.qSet, env.quorumSetHash) :: (env.values.filterMap id).map fun h => (.txSet, h)

/-- The items in the two caches, the most recently used first. -/
structure Caches where
  mQsetCache : List Hash := []
  mTxSetCache : List Hash := []
deriving DecidableEq, Repr

namespace Caches

def get (caches : Caches) : Kind → List Hash
  | .qSet => caches.mQsetCache
  | .txSet => caches.mTxSetCache

def set (caches : Caches) (hashes : List Hash) : Kind → Caches
  | .qSet => { caches with mQsetCache := hashes }
  | .txSet => { caches with mTxSetCache := hashes }

def «exists» (caches : Caches) (item : Item) : Bool := (caches.get item.1).contains item.2

end Caches

/-- `QSET_CACHE_SIZE` and `TXSET_CACHE_SIZE` -/
def CACHE_SIZE : ℕ := 10000

/-- The caches after `put`, and the item that is evicted. -/
def Caches.put (caches : Caches) (item : Item) : Caches × Option Item :=
  let items := item.2 :: (caches.get item.1).erase item.2
  if CACHE_SIZE < items.length then
    (caches.set items.dropLast item.1, items.getLast?.map (item.1, ·))
  else (caches.set items item.1, none)

/-- The caches after `get` of an item that exists. -/
def Caches.use (caches : Caches) (item : Item) : Caches :=
  if caches.exists item then caches.set (item.2 :: (caches.get item.1).erase item.2) item.1
  else caches

/-- The tracker of an item. `armed` says that its timer is pending. -/
structure Tracker where
  mWaitingEnvelopes : List SCPEnvelope := []
  mLastAskedPeer : Option Peer := none
  mPeersToAsk : List Peer := []
  mNumListRebuild : ℕ := 0
  armed : Bool := false
deriving DecidableEq, Repr

/-- What happened, for the statements below: no code reads it. -/
inductive Event where
  /-- the envelope goes to the queue of SCP -/
  | handed (env : SCPEnvelope) (caches : Caches)
  /-- the envelopes that were processed for a slot are forgotten -/
  | forgot (slotIndex : ℕ)
  /-- an item is evicted that has a tracker, or that an envelope being fetched refers to -/
  | evicted (item : Item)
  /-- an envelope that is being fetched and has everything is turned away -/
  | dropped (env : SCPEnvelope)
  /-- waiting lists are cleared of a slot that is being fetched -/
  | cleared (slotIndex : ℕ)
  /-- a value of an envelope that is now being fetched cannot be decoded -/
  | corrupt (env : SCPEnvelope)

structure State where
  mProcessedEnvelopes : List SCPEnvelope := []
  mFetchingEnvelopes : List SCPEnvelope := []
  mPendingEnvelopes : List SCPEnvelope := []
  caches : Caches := {}
  mTrackers : Item → Option Tracker := fun _ => none
  /-- the calls of `stopFetchingBelowInternal` that are posted -/
  posted : List (Kind × ℕ) := []
  /-- the index of the last consensus, if the herder is tracking -/
  mTrackingSCP : Option ℕ := none
  currentLedgerSeq : ℕ := 0
  /-- the number of questions asked so far -/
  asked : ℕ := 0
  /-- newest first -/
  log : List Event := []

inductive Fault where
  | stackOverflow
deriving DecidableEq, Repr

abbrev PendingM := EStateM Fault State

/-- What SCP, or the herder on its own, does to the pending envelopes. -/
inductive Reaction where
  | recvTxSet (hash : Hash)
  | recvSCPQuorumSet (hash : Hash)
  /-- `getTxSet` and `getQSet` -/
  | lookup (item : Item)
  | slotClosed (slotIndex : ℕ)
  | processSCPQueueUpToIndex (slotIndex : ℕ)
  | processSCPQueue
  | setTracking (mTrackingSCP : Option ℕ) (currentLedgerSeq : ℕ)
deriving DecidableEq, Repr

/-- The rest of the node. Its answers depend on the number of questions asked before. -/
structure World where
  MANUAL_CLOSE : Bool
  localNodeID : NodeID
  isNodeInQuorum : ℕ → NodeID → Bool
  getRandomPeers : ℕ → List Peer
  getPeersKnows : ℕ → SCPEnvelope → List Peer
  isAuthenticated : ℕ → Peer → Bool
  /-- what `mSCP.receiveEnvelope` leads to -/
  receiveEnvelope : ℕ → SCPEnvelope → List Reaction

variable (world : World)

/-! ## Trackers -/

namespace Tracker

/-- The peers to ask: those that have one of the envelopes are at the back, to be asked first. -/
def peersToAsk (n : ℕ) (t : Tracker) : List Peer :=
  (world.getRandomPeers n).foldl
    (fun peers p =>
      if t.mWaitingEnvelopes.any fun e => (world.getPeersKnows n e).contains p then peers ++ [p]
      else p :: peers) []

/-- Asks the last peer of the list that is authenticated, and arms the timer. -/
def tryNextPeer (n : ℕ) (t : Tracker) : Tracker :=
  let t :=
    if t.mPeersToAsk = [] ∧ t.mLastAskedPeer = none then
      { t with mPeersToAsk := peersToAsk world n t, mNumListRebuild := t.mNumListRebuild + 1 }
    else t
  match t.mPeersToAsk.reverse.dropWhile fun p => !world.isAuthenticated n p with
  | [] => { t with mPeersToAsk := [], mLastAskedPeer := none, armed := true }
  | peer :: rest =>
    { t with mPeersToAsk := rest.reverse, mLastAskedPeer := some peer, armed := true }

def listen (env : SCPEnvelope) (t : Tracker) : Tracker :=
  { t with mWaitingEnvelopes := t.mWaitingEnvelopes ++ [env] }

def doesntHave (n : ℕ) (peer : Peer) (t : Tracker) : Tracker :=
  if t.mLastAskedPeer = some peer then t.tryNextPeer world n else t

/-- Nothing if no one cares about the item any more. -/
def clearEnvelopesBelow (slotIndex : ℕ) (t : Tracker) : Option Tracker :=
  let waiting := t.mWaitingEnvelopes.filter (slotIndex ≤ ·.slotIndex)
  if waiting = [] then none else some { t with mWaitingEnvelopes := waiting }

end Tracker

/-! ## The item fetcher -/

def setTracker (item : Item) (t : Option Tracker) : PendingM Unit :=
  modify fun s => { s with mTrackers := Function.update s.mTrackers item t, asked := s.asked + 1 }

def fetch (item : Item) (env : SCPEnvelope) : PendingM Unit := do
  let s ← get
  match s.mTrackers item with
  | none =>
    let tracker := ({} : Tracker).listen env
    setTracker item (some (tracker.tryNextPeer world s.asked))
  | some tracker => setTracker item (some (tracker.listen env))

def doesntHave (item : Item) (peer : Peer) : PendingM Unit := do
  let s ← get
  setTracker item ((s.mTrackers item).map (Tracker.doesntHave world s.asked peer))

/-- The timer of the tracker fires. -/
def timer (item : Item) : PendingM Unit := do
  let s ← get
  setTracker item ((s.mTrackers item).map fun t =>
    if t.armed then t.tryNextPeer world s.asked else t)

/-- One of the two fetchers clears its waiting lists. -/
def stopFetchingBelowInternal (kind : Kind) (slotIndex : ℕ) : PendingM Unit :=
  modify fun s => { s with
    mTrackers := fun item =>
      if item.1 = kind then (s.mTrackers item).bind (Tracker.clearEnvelopesBelow slotIndex)
      else s.mTrackers item
    log := if s.mFetchingEnvelopes.any (·.slotIndex < slotIndex) then .cleared slotIndex :: s.log
      else s.log }

/-! ## Pending envelopes -/

/-- Throws if a value cannot be decoded before an item is found missing. -/
def isFullyFetchedValues (caches : Caches) : List (Option Hash) → Option Bool
  | [] => some true
  | none :: _ => none
  | some h :: values =>
    if caches.exists (.txSet, h) then isFullyFetchedValues caches values else some false

def isFullyFetched (caches : Caches) (env : SCPEnvelope) : Option Bool :=
  if caches.exists (.qSet, env.quorumSetHash) then isFullyFetchedValues caches env.values
  else some false

/-- Answers whether every value can be decoded: the others are not fetched if not. -/
def startFetchValues (env : SCPEnvelope) : List (Option Hash) → PendingM Bool
  | [] => return true
  | none :: _ => return false
  | some h :: values => do
    let s ← get
    runIf (!s.caches.exists (.txSet, h)) (fetch world (.txSet, h) env)
    startFetchValues env values

def startFetch (env : SCPEnvelope) : PendingM Bool := do
  let s ← get
  runIf (!s.caches.exists (.qSet, env.quorumSetHash))
    (fetch world (.qSet, env.quorumSetHash) env)
  startFetchValues world env env.values

def eraseBelow (slotIndex : ℕ) : PendingM Unit :=
  modify fun s => { s with
    mPendingEnvelopes := s.mPendingEnvelopes.filter (slotIndex ≤ ·.slotIndex)
    mFetchingEnvelopes := s.mFetchingEnvelopes.filter (slotIndex ≤ ·.slotIndex) }

def MAX_SLOTS_TO_REMEMBER : ℕ := 4

/-- The slot that falls off the window. -/
def slotClosed (slotIndex : ℕ) : PendingM Unit :=
  runIf (MAX_SLOTS_TO_REMEMBER < slotIndex) do
    let slotIndex := slotIndex - MAX_SLOTS_TO_REMEMBER
    modify fun s => { s with
      mPendingEnvelopes := s.mPendingEnvelopes.filter (·.slotIndex ≠ slotIndex)
      mProcessedEnvelopes := s.mProcessedEnvelopes.filter (·.slotIndex ≠ slotIndex)
      mFetchingEnvelopes := s.mFetchingEnvelopes.filter (·.slotIndex ≠ slotIndex)
      posted := s.posted ++ [(.txSet, slotIndex + 1), (.qSet, slotIndex + 1)]
      log := .forgot slotIndex :: s.log }

/-- The last envelope of the lowest slot that has one, up to `slotIndex`. -/
def pop (slotIndex : ℕ) : PendingM (Option SCPEnvelope) := do
  let s ← get
  let ready := s.mPendingEnvelopes.filter (·.slotIndex ≤ slotIndex)
  let lowest := ready.foldl (fun m env => min m env.slotIndex) slotIndex
  match (ready.filter (·.slotIndex = lowest)).getLast? with
  | none => return none
  | some env =>
    set { s with mPendingEnvelopes := (s.mPendingEnvelopes.reverse.erase env).reverse }
    return some env

/-- The slots that have envelopes. -/
def readySlots (pending : List SCPEnvelope) : List ℕ :=
  (pending.map (·.slotIndex)).dedup.insertionSort (· ≤ ·)

/-- The functions that call each other through SCP. -/
inductive Call where
  | recvSCPEnvelope (env : SCPEnvelope)
  /-- the loop of `ItemFetcher::recv` -/
  | recv (item : Item)
  | processSCPQueue
  /-- the loop over `readySlots` -/
  | processSlots (slots : List ℕ)
  | processSCPQueueUpToIndex (slotIndex : ℕ)
  | react (reactions : List Reaction)

section Calls

variable (call : Call → PendingM Unit)

def envelopeReady (env : SCPEnvelope) : PendingM Unit := do
  modify fun s => { s with mPendingEnvelopes := s.mPendingEnvelopes ++ [env] }
  call .processSCPQueue

/-- The envelope is being fetched: it is released if it has everything. -/
def releaseIfFetched (env : SCPEnvelope) : PendingM Unit := do
  let s ← get
  runIf (isFullyFetched s.caches env = some true) do
    set { s with
      mProcessedEnvelopes := s.mProcessedEnvelopes ++ [env]
      mFetchingEnvelopes := s.mFetchingEnvelopes.erase env
      log := .handed env s.caches :: s.log }
    envelopeReady call env

/-- `PendingEnvelopes::recvSCPEnvelope`, of a node in the quorum. An exception is caught. -/
def recvPending (env : SCPEnvelope) : PendingM Unit := do
  let s ← get
  if env ∈ s.mFetchingEnvelopes then releaseIfFetched call env
  else
    runIf (env ∉ s.mProcessedEnvelopes) do
      set { s with mFetchingEnvelopes := env :: s.mFetchingEnvelopes }
      if ← startFetch world env then releaseIfFetched call env
      else modify fun s => { s with log := .corrupt env :: s.log }

/-- An envelope is turned away. -/
def drop (env : SCPEnvelope) : PendingM Unit :=
  modify fun s => { s with
    log := if env ∈ s.mFetchingEnvelopes ∧ isFullyFetched s.caches env = some true then
      .dropped env :: s.log else s.log }

def LEDGER_VALIDITY_BRACKET : ℕ := 100

/-- `HerderImpl::recvSCPEnvelope` -/
def recvSCPEnvelope (env : SCPEnvelope) : PendingM Unit := do
  let s ← get
  let minLedgerSeq :=
    if MAX_SLOTS_TO_REMEMBER < s.currentLedgerSeq then s.currentLedgerSeq - MAX_SLOTS_TO_REMEMBER
    else s.currentLedgerSeq
  let maxLedgerSeq := s.mTrackingSCP.elim (2 ^ 32 - 1) (· + 1 + LEDGER_VALIDITY_BRACKET)
  if world.MANUAL_CLOSE ∨ env.nodeID = world.localNodeID ∨ maxLedgerSeq < env.slotIndex ∨
      env.slotIndex < minLedgerSeq then drop env
  else
    set { s with asked := s.asked + 1 }
    if world.isNodeInQuorum s.asked env.nodeID then recvPending world call env else drop env

/-- One turn of the loop of `ItemFetcher::recv`: the last envelope that waits is received. -/
def recv (item : Item) : PendingM Unit := do
  let s ← get
  match s.mTrackers item with
  | none => pure ()
  | some tracker =>
    match tracker.mWaitingEnvelopes.getLast? with
    | some env =>
      setTracker item
        (some { tracker with mWaitingEnvelopes := tracker.mWaitingEnvelopes.dropLast })
      call (.recvSCPEnvelope env)
      call (.recv item)
    -- stop the timer, stop requesting the item as we have it
    | none => setTracker item (some { tracker with armed := false })

/-- The log after an eviction. -/
def State.evict (s : State) : Option Item → List Event
  | none => s.log
  | some victim =>
    if (s.mTrackers victim).isSome ∨ ∃ env ∈ s.mFetchingEnvelopes, victim ∈ env.items then
      .evicted victim :: s.log
    else s.log

/-- `recvSCPQuorumSet` and `recvTxSet` -/
def recvItem (item : Item) : PendingM Unit := do
  modify fun s =>
    { s with caches := (s.caches.put item).1, log := s.evict (s.caches.put item).2 }
  call (.recv item)

def processSCPQueue : PendingM Unit := do
  let s ← get
  match s.mTrackingSCP with
  | some consensusIndex =>
    -- drop obsolete slots
    runIf (MAX_SLOTS_TO_REMEMBER < consensusIndex + 1)
      (eraseBelow (consensusIndex + 1 - MAX_SLOTS_TO_REMEMBER))
    call (.processSCPQueueUpToIndex (consensusIndex + 1))
  | none => call (.processSlots (readySlots s.mPendingEnvelopes))

/-- The slots from the smallest on, until one of them externalizes. -/
def processSlots : List ℕ → PendingM Unit
  | [] => pure ()
  | slot :: slots => do
    call (.processSCPQueueUpToIndex slot)
    runIf ((← get).mTrackingSCP = none) (call (.processSlots slots))

def processSCPQueueUpToIndex (slotIndex : ℕ) : PendingM Unit := do
  match ← pop slotIndex with
  | none => pure ()
  | some env =>
    let s ← get
    set { s with asked := s.asked + 1 }
    call (.react (world.receiveEnvelope s.asked env))
    call (.processSCPQueueUpToIndex slotIndex)

def perform : Reaction → PendingM Unit
  | .recvTxSet hash => recvItem call (.txSet, hash)
  | .recvSCPQuorumSet hash => recvItem call (.qSet, hash)
  | .lookup item => modify fun s => { s with caches := s.caches.use item }
  | .slotClosed slotIndex => slotClosed slotIndex
  | .processSCPQueueUpToIndex slotIndex => call (.processSCPQueueUpToIndex slotIndex)
  | .processSCPQueue => call .processSCPQueue
  | .setTracking mTrackingSCP currentLedgerSeq =>
    modify fun s => { s with mTrackingSCP, currentLedgerSeq }

def react : List Reaction → PendingM Unit
  | [] => pure ()
  | r :: reactions => do
    perform call r
    call (.react reactions)

end Calls

/-- The stack is bounded by `fuel`. -/
def exec : ℕ → Call → PendingM Unit
  | 0, _ => throw .stackOverflow
  | fuel + 1, .recvSCPEnvelope env => recvSCPEnvelope world (exec fuel) env
  | fuel + 1, .recv item => recv (exec fuel) item
  | fuel + 1, .processSCPQueue => processSCPQueue (exec fuel)
  | fuel + 1, .processSlots slots => processSlots (exec fuel) slots
  | fuel + 1, .processSCPQueueUpToIndex slotIndex =>
    processSCPQueueUpToIndex world (exec fuel) slotIndex
  | fuel + 1, .react reactions => react (exec fuel) reactions

/-! ## Runs -/

inductive Input where
  | recvSCPEnvelope (env : SCPEnvelope)
  | peerDoesntHave (item : Item) (peer : Peer)
  /-- the timer of a tracker fires -/
  | timer (item : Item)
  /-- the first call that is posted is made -/
  | runPosted
  | react (r : Reaction)

def runPosted : PendingM Unit := do
  let s ← get
  match s.posted with
  | [] => pure ()
  | (kind, slotIndex) :: posted =>
    set { s with posted }
    stopFetchingBelowInternal kind slotIndex

def step (fuel : ℕ) : Input → PendingM Unit
  | .recvSCPEnvelope env => exec world fuel (.recvSCPEnvelope env)
  | .peerDoesntHave item peer => doesntHave world item peer
  | .timer item => timer world item
  | .runPosted => runPosted
  | .react r => perform (exec world fuel) r

end SmartCore.Herder.Pending
