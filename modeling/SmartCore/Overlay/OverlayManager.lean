import Mathlib.Data.List.Perm.Subperm
import SmartCore.Overlay.Peer

/-!
# The peers of a node

`OverlayManagerImpl` keeps the list of the peers a node is connected to. A peer is put on the list
when it is made, and its `drop` takes it off again. When an AUTH arrives and the list is full, a
preferred peer may take the place of another one.

What is on the list and what the peers themselves say should go together: authenticated peers are
on the list, dropped ones are not, no node is authenticated twice, and there are never more
authenticated peers than `MAX_PEER_CONNECTIONS`.

The code does not keep that. The peer that gives way is taken off the list with `dropPeer`, which
does not drop it: it stays authenticated (`evicted_stays_authenticated`). A peer that is not on the
list any more, or that has not said HELLO, can still be authenticated.

Main result: `peers_consistent`. As long as every AUTH that is accepted comes from a peer on the
list that has said HELLO, and nobody authenticated has to give way to it, everything goes together.
-/

namespace SmartCore.Overlay

/-! ## The manager -/

/-- A `TCPPeer`, with the address of the remote node. -/
structure TCPPeer where
  mIP : String
  peer : Peer
deriving DecidableEq

/-- `Peer::toString`. -/
def TCPPeer.toString (p : TCPPeer) : String :=
  p.mIP ++ ":" ++ p.peer.mRemoteListeningPort.toNat.repr

/-- What the configuration says about peers. -/
structure PeerConfig where
  MAX_PEER_CONNECTIONS : ℕ
  PREFERRED_PEERS_ONLY : Bool := false
  mPreferredPeers : List String := []
  PREFERRED_PEER_KEYS : List NodeID := []

def PeerConfig.isPeerPreferred (cfg : PeerConfig) (p : TCPPeer) : Bool :=
  decide (p.toString ∈ cfg.mPreferredPeers) ||
    (p.peer.isAuthenticated && decide (p.peer.mPeerID ∈ cfg.PREFERRED_PEER_KEYS))

/-- The manager. `peers` are all that were ever made, on the list or not. -/
structure OverlayManager where
  peerAuth : PeerAuth
  peers : List TCPPeer := []
  mShuttingDown : Bool := false

namespace OverlayManager

variable (cfg : PeerConfig) (app : Application) (m : OverlayManager)

/-- The list. A peer is pushed at its end when it is made and never comes back once it is erased, so
the list is in the order in which the peers were made. -/
def mPeers : List ℕ :=
  (List.range m.peers.length).filter fun i => m.peers[i]?.any fun p => p.peer.listed

def getConnectedPeer (ip : String) (port : UInt16) : Option ℕ :=
  m.mPeers.find? fun i => m.peers[i]?.any fun p =>
    decide (p.mIP = ip ∧ p.peer.mRemoteListeningPort = port)

def addConnectedPeer (p : TCPPeer) : OverlayManager :=
  if m.mShuttingDown then { m with peers := m.peers ++ [{ p with peer := p.peer.drop }] }
  else { m with peers := m.peers ++ [p] }

/-- Take a peer off the list. -/
def dropPeer (i : ℕ) : OverlayManager :=
  { m with peers := m.peers.modify i fun p => { p with peer := { p.peer with listed := false } } }

def connectTo (ip : String) (port : UInt16) (nonce : Nonce) : OverlayManager :=
  if port = 0 then m
  else if ip = "" then m
  else if (m.getConnectedPeer ip port).isSome then m
  else m.addConnectedPeer
    { mIP := ip
      peer := { Peer.create .WE_CALLED_REMOTE nonce with mRemoteListeningPort := port } }

/-- `PeerDoor::handleKnock`. -/
def handleKnock (ip : String) (nonce : Nonce) : OverlayManager :=
  m.addConnectedPeer
    { mIP := ip
      peer := (Peer.create .REMOTE_CALLED_US nonce).startRead
        { isShuttingDown := m.mShuttingDown } }

/-- Is a peer accepted, and who gives way to it? -/
def isPeerAccepted (p : TCPPeer) : Bool × Option ℕ :=
  let room := decide (m.mPeers.length < cfg.MAX_PEER_CONNECTIONS)
  if cfg.isPeerPreferred p then
    if room then (true, none)
    else
      match m.mPeers.find? fun i => m.peers[i]?.any fun v => !cfg.isPeerPreferred v with
      | some victim => (true, some victim)
      | none => (!cfg.PREFERRED_PEERS_ONLY && room, none)
  else (!cfg.PREFERRED_PEERS_ONLY && room, none)

/-- `recvAuth` asks when the peer is in GOT_AUTH already. -/
def asksFor (i : ℕ) : Bool × Option ℕ :=
  let m' := { m with peers := m.peers.modify i fun p =>
    { p with peer := { p.peer with mState := .GOT_AUTH } } }
  match m'.peers[i]? with
  | some p => m'.isPeerAccepted cfg p
  | none => (false, none)

/-- The nodes that the other peers on the list are connected to. -/
def otherPeerIDs (i : ℕ) : List NodeID :=
  (m.mPeers.filter fun j => j ≠ i).filterMap fun j => m.peers[j]?.map fun p => p.peer.mPeerID

/-- What the manager says to a peer. -/
def env (i : ℕ) (timeNow : ℕ) (replies : List (PayloadType × ℕ)) : Env where
  timeNow := timeNow
  isShuttingDown := m.mShuttingDown
  isPeerAccepted := (m.asksFor cfg i).1
  peerIDs := m.otherPeerIDs i
  replies := replies

/-- Something happens to a peer. -/
def stepAt (i : ℕ) (e : Event) : OverlayManager :=
  match m.peers[i]? with
  | some p =>
    let s := Session.step app ⟨p.peer, m.peerAuth⟩ e
    { m with peerAuth := s.peerAuth, peers := m.peers.set i { p with peer := s.peer } }
  | none => m

def shutdown : OverlayManager :=
  if m.mShuttingDown then m
  else
    { m with
      mShuttingDown := true
      peers := m.peers.map fun p =>
        if p.peer.listed then { p with peer := p.peer.dropWith app .ERR_MISC "peer shutdown" }
        else p }

def isAuthenticated (i : ℕ) : Bool := m.peers[i]?.any fun p => p.peer.isAuthenticated

/-- The peers in GOT_AUTH. -/
def authenticated : List ℕ := (List.range m.peers.length).filter m.isAuthenticated

/-! ## Runs -/

/-- What can happen: a connection is opened in either direction, the handler of one is called, a
message arrives or one that cannot be decoded, a peer is dropped (for a timeout, an error of the
socket, or as the victim of `maybeShedExcessLoad`), something is sent, or the node shuts down. -/
inductive Action where
  | connectTo (ip : String) (port : UInt16) (nonce : Nonce)
  | handleKnock (ip : String) (nonce : Nonce)
  | connectHandler (i : ℕ) (error : Bool) (timeNow : ℕ)
  | recvMessage (i : ℕ) (msg : AuthenticatedMessage) (timeNow : ℕ)
      (replies : List (PayloadType × ℕ))
  | recvCorrupt (i : ℕ)
  | drop (i : ℕ)
  | send (i : ℕ) (type : PayloadType) (contents : ℕ)
  | shutdown

def act : Action → OverlayManager
  | .connectTo ip port nonce => m.connectTo ip port nonce
  | .handleKnock ip nonce => m.handleKnock ip nonce
  | .connectHandler i error timeNow =>
    m.stepAt app i (.connectHandler error (m.env cfg i timeNow []))
  | .recvMessage i msg timeNow replies =>
    let m' := m.stepAt app i (.recvMessage msg (m.env cfg i timeNow replies))
    -- a peer that has just been accepted may have taken the place of another one
    if m.isAuthenticated i = false ∧ m'.isAuthenticated i = true then
      match (m.asksFor cfg i).2 with
      | some victim => m'.dropPeer victim
      | none => m'
    else m'
  | .recvCorrupt i => m.stepAt app i (.recvCorrupt (m.env cfg i 0 []))
  | .drop i => m.stepAt app i .drop
  | .send i type contents => m.stepAt app i (.send type contents)
  | .shutdown => m.shutdown app

def run (acts : List Action) : OverlayManager := acts.foldl (act cfg app) m

theorem run_snoc (acts : List Action) (a : Action) :
    m.run cfg app (acts ++ [a]) = (m.run cfg app acts).act cfg app a :=
  List.foldl_append

/-! ## What a run has to keep -/

/-- The list and the states of the peers go together. -/
structure Consistent : Prop where
  auth : ∀ i p, m.peers[i]? = some p → p.peer.mState = .GOT_AUTH → i ∈ m.mPeers
  closing : ∀ i p, m.peers[i]? = some p → p.peer.mState = .CLOSING → i ∉ m.mPeers
  distinct : ∀ (i j : ℕ) (p q : TCPPeer), m.peers[i]? = some p → m.peers[j]? = some q → i ≠ j →
    p.peer.mState = .GOT_AUTH → q.peer.mState = .GOT_AUTH → p.peer.mPeerID ≠ q.peer.mPeerID
  bound : m.authenticated.length ≤ cfg.MAX_PEER_CONNECTIONS

/-- The message is an AUTH that is going to be handled, from a peer that is not authenticated. -/
structure Authenticates (p : Peer) (msg : AuthenticatedMessage) : Prop where
  reading : p.reading = true
  abort : p.mState ≠ .CLOSING ∧ m.mShuttingDown = false
  auth : ∃ unused, msg.message = .AUTH unused
  before : p.mState ≠ .GOT_AUTH
  next : p.mState.gotHello = true → msg.sequence = p.mRecvMacSeq ∧
    msg.mac = app.crypto.hmacSha256 p.mRecvMacKey msg.sequence msg.message

/-- An AUTH that is accepted comes from a peer on the list that has said HELLO. If another peer has
to give way, that one is not authenticated, and there are fewer authenticated peers than there may
be. -/
def Careful : Action → Prop
  | .recvMessage i msg _ _ => ∀ p, m.peers[i]? = some p → m.Authenticates app p.peer msg →
    (m.asksFor cfg i).1 = true →
      p.peer.mState = .GOT_HELLO ∧ i ∈ m.mPeers ∧
      ∀ victim, (m.asksFor cfg i).2 = some victim → m.isAuthenticated victim = false ∧
        m.authenticated.length < cfg.MAX_PEER_CONNECTIONS
  | _ => True

end OverlayManager

/-! ## One step of a peer -/

/-- Only `drop` takes a peer off the list. -/
structure Peer.Tracks (p p' : Peer) : Prop where
  closing : p'.mState = .CLOSING → p'.listed = false ∨ p.mState = .CLOSING ∧ p'.listed = p.listed
  other : p'.mState ≠ .CLOSING → p'.listed = p.listed

namespace Peer.Tracks

variable {app : Application} {p q r : Peer}

theorem of_eq (hstate : q.mState = p.mState) (hlisted : q.listed = p.listed) : p.Tracks q :=
  ⟨fun h => Or.inr ⟨hstate ▸ h, hlisted⟩, fun _ => hlisted⟩

theorem of_open (hstate : q.mState ≠ .CLOSING) (hlisted : q.listed = p.listed) : p.Tracks q :=
  ⟨fun h => absurd h hstate, fun _ => hlisted⟩

theorem same (h : p.Tracks q) (hstate : r.mState = q.mState) (hlisted : r.listed = q.listed) :
    p.Tracks r := by
  refine ⟨fun hc => ?_, fun hc => ?_⟩
  · rw [hlisted]
    exact h.closing (hstate ▸ hc)
  · rw [hlisted]
    exact h.other (hstate ▸ hc)

theorem drop (h : p.Tracks q) : p.Tracks q.drop := by
  unfold Peer.drop
  split_ifs
  · exact h
  · exact ⟨fun _ => Or.inl rfl, fun hc => absurd rfl hc⟩

theorem dropWith (h : p.Tracks q) (err : ErrorCode) (text : String) :
    p.Tracks (q.dropWith app err text) :=
  (h.same (r := q.sendMessage app (.ERROR_MSG err text)) rfl rfl).drop

theorem sendReplies (h : p.Tracks q) (replies : List (PayloadType × ℕ)) :
    p.Tracks (q.sendReplies app replies) := by
  induction replies generalizing q with
  | nil => exact h
  | cons r replies ih => exact ih (h.same (r := q.sendMessage app (.payload r.1 r.2)) rfl rfl)

end Peer.Tracks

namespace Session

variable {app : Application} {env : Env} {s : Session}

theorem recvHello_tracks (elo : Hello) : s.peer.Tracks (s.recvHello app env elo).peer := by
  have hself : s.peer.Tracks s.peer := .of_eq rfl rfl
  unfold recvHello
  split_ifs
  · exact hself.drop
  · exact hself.drop
  · obtain ⟨t, ht⟩ : ∃ t, t = if (s.acceptHello app elo).peer.mRole = .REMOTE_CALLED_US then
        (s.acceptHello app elo).sendHello app env else s.acceptHello app elo := ⟨_, rfl⟩
    have hopen : s.peer.Tracks t.peer := by
      have hfields : t.peer.mState = .GOT_HELLO ∧ t.peer.listed = s.peer.listed := by
        rw [ht]
        split_ifs <;> exact ⟨rfl, rfl⟩
      exact .of_open (by simp [hfields.1]) hfields.2
    simp only
    rw [← ht]
    unfold checkHello
    split_ifs
    · exact hopen.dropWith _ _
    · exact hopen.dropWith _ _
    · exact hopen.dropWith _ _
    · exact hopen.dropWith _ _
    · exact hopen.dropWith _ _
    · exact hopen.same rfl rfl
    · exact hopen

theorem recvAuth_tracks : s.peer.Tracks (s.recvAuth app env) := by
  have hself : s.peer.Tracks s.peer := .of_eq rfl rfl
  have hopen : s.peer.Tracks { s.peer with mState := .GOT_AUTH } := .of_open (by simp) rfl
  simp only [recvAuth]
  split_ifs
  · exact hself.dropWith _ _
  · exact hopen.dropWith _ _
  · have hsent : s.peer.Tracks (Peer.sendAuth app { s.peer with mState := .GOT_AUTH }) :=
      hopen.same rfl rfl
    exact hsent.sendReplies _
  · exact hopen.sendReplies _

theorem recvStellarMessage_tracks (checked : Bool) (msg : StellarMessage) :
    s.peer.Tracks (s.recvStellarMessage app env checked msg).peer := by
  have hself : s.peer.Tracks s.peer := .of_eq rfl rfl
  let hand : Session :=
    { s with peer := { s.peer with handed := s.peer.handed ++ [(msg, checked)] } }
  have hhanded : s.peer.Tracks hand.peer := .of_eq rfl rfl
  unfold recvStellarMessage
  by_cases habort : s.peer.shouldAbort env = true
  · rw [if_pos habort]
    exact hself
  rw [if_neg habort]
  cases msg with
  | ERROR_MSG code text => exact hhanded.drop
  | HELLO elo =>
    have h : hand.peer.Tracks (hand.recvHello app env elo).peer := recvHello_tracks elo
    exact ⟨h.closing, h.other⟩
  | AUTH unused =>
    have h : hand.peer.Tracks (hand.recvAuth app env) := recvAuth_tracks
    exact ⟨h.closing, h.other⟩
  | payload type contents =>
    simp only
    split_ifs
    · exact hself.drop
    · exact hhanded.sendReplies _

theorem recvMessage_tracks (msg : AuthenticatedMessage) :
    s.peer.Tracks (s.recvMessage app env msg).peer := by
  have hseq : s.peer.Tracks { s.peer with mRecvMacSeq := s.peer.mRecvMacSeq + 1 } := .of_eq rfl rfl
  simp only [recvMessage]
  split_ifs
  · exact .of_eq rfl rfl
  · exact hseq.dropWith _ _
  · exact hseq.dropWith _ _
  · let next : Session :=
      { s with peer := { s.peer with mRecvMacSeq := s.peer.mRecvMacSeq + 1 } }
    have h : next.peer.Tracks (next.recvStellarMessage app env true msg.message).peer :=
      recvStellarMessage_tracks true msg.message
    exact ⟨h.closing, h.other⟩
  · exact recvStellarMessage_tracks _ _

theorem step_tracks {e : Event} (he : e ≠ .evict) : s.peer.Tracks (s.step app e).peer := by
  have hself : s.peer.Tracks s.peer := .of_eq rfl rfl
  cases e with
  | connectHandler error env =>
    simp only [step]
    split_ifs
    · cases error with
      | true => exact Peer.Tracks.drop (.of_eq rfl rfl)
      | false => exact .of_open (by simp [connectHandler, sendHello, Peer.sendMessage]) rfl
    · exact hself
  | recvMessage msg env =>
    simp only [step]
    split_ifs
    · exact (recvMessage_tracks msg).same rfl rfl
    · exact hself
  | recvCorrupt env =>
    simp only [step]
    split_ifs
    · exact Peer.Tracks.same (hself.dropWith .ERR_DATA "received corrupt XDR") rfl rfl
    · exact hself
  | drop => exact hself.drop
  | shutdown => exact hself.dropWith _ _
  | evict => exact absurd rfl he
  | send type contents =>
    simp only [step]
    split_ifs
    · exact .of_eq rfl rfl
    · exact hself
  | getSharedKey remotePublic role => exact hself

/-- What a step can mean for the list. -/
inductive Moved (app : Application) (s : Session) (e : Event) (s' : Session) : Prop where
  | same (state : s'.peer.mState = s.peer.mState) (peerID : s'.peer.mPeerID = s.peer.mPeerID)
      (listed : s'.peer.listed = s.peer.listed)
  | closed (state : s'.peer.mState = .CLOSING)
      (listed : s'.peer.listed = false ∨ s.peer.mState = .CLOSING ∧ s'.peer.listed = s.peer.listed)
  | connected (state : s'.peer.mState = .CONNECTED) (listed : s'.peer.listed = s.peer.listed)
  | hello (msg : AuthenticatedMessage) (env : Env) (event : e = .recvMessage msg env)
      (state : s'.peer.mState = .GOT_HELLO) (other : s'.peer.mPeerID ∉ env.peerIDs)
      (listed : s'.peer.listed = s.peer.listed)
  | auth (msg : AuthenticatedMessage) (env : Env) (event : e = .recvMessage msg env)
      (reading : s.peer.reading = true) (abort : s.peer.shouldAbort env = false)
      (message : ∃ unused, msg.message = .AUTH unused) (accepted : env.isPeerAccepted = true)
      (before : s.peer.mState ≠ .GOT_AUTH)
      (next : s.peer.mState.gotHello = true → msg.sequence = s.peer.mRecvMacSeq ∧
        msg.mac = app.crypto.hmacSha256 s.peer.mRecvMacKey msg.sequence msg.message)
      (state : s'.peer.mState = .GOT_AUTH) (peerID : s'.peer.mPeerID = s.peer.mPeerID)
      (listed : s'.peer.listed = s.peer.listed)

theorem step_moved {e : Event} (he : e ≠ .evict) : Moved app s e (s.step app e) := by
  have htracks : s.peer.Tracks (s.step app e).peer := step_tracks he
  have hopen {st : PeerState} (hst : (s.step app e).peer.mState = st) (hne : st ≠ .CLOSING) :
      (s.step app e).peer.listed = s.peer.listed := htracks.other (hst ▸ hne)
  have hcases : Stepped app s e (s.step app e) := step_cases e
  cases hcases with
  | same state kept handed =>
    by_cases hc : s.peer.mState = .CLOSING
    · exact .closed (state.trans hc) (htracks.closing (state.trans hc))
    · exact .same state kept.peerID (hopen state hc)
  | closing state => exact .closed state (htracks.closing state)
  | connected env event before state => exact .connected state (hopen state (by simp))
  | received msg env event reading abort result =>
    cases result with
    | closing state => exact .closed state (htracks.closing state)
    | hello elo message before cert network version state connecting peerID key handed other =>
      exact .hello msg env event state (by rw [peerID]; exact other) (hopen state (by simp))
    | auth unused checked message accepted before next state kept =>
      exact .auth msg env event reading abort ⟨unused, message⟩ accepted before next state
        kept.peerID (hopen state (by simp))
    | payload type contents message before next state kept =>
      exact .same (state.trans before.symm) kept.peerID (hopen state (by simp))

end Session

/-- Has the peer said HELLO, and is it still there? -/
def PeerState.known : PeerState → Bool
  | .GOT_HELLO | .GOT_AUTH => true
  | _ => false

/-! ## The list -/

namespace OverlayManager

variable {cfg : PeerConfig} {app : Application} {m : OverlayManager} {i j : ℕ} {p q : TCPPeer}

theorem mem_mPeers : i ∈ m.mPeers ↔ ∃ p, m.peers[i]? = some p ∧ p.peer.listed = true := by
  simp only [mPeers, List.mem_filter, List.mem_range, Option.any_eq_true]
  constructor
  · rintro ⟨-, h⟩
    exact h
  · rintro ⟨p, hp, hl⟩
    exact ⟨(List.getElem?_eq_some_iff.mp hp).1, p, hp, hl⟩

theorem mem_mPeers_of (hp : m.peers[i]? = some p) : i ∈ m.mPeers ↔ p.peer.listed = true := by
  rw [mem_mPeers]
  constructor
  · rintro ⟨q, hq, hl⟩
    obtain rfl : p = q := Option.some.inj (hp.symm.trans hq)
    exact hl
  · intro hl
    exact ⟨p, hp, hl⟩

theorem isAuthenticated_of (hp : m.peers[i]? = some p) :
    m.isAuthenticated i = true ↔ p.peer.mState = .GOT_AUTH := by
  simp [isAuthenticated, hp, Peer.isAuthenticated]

theorem mem_authenticated :
    i ∈ m.authenticated ↔ ∃ p, m.peers[i]? = some p ∧ p.peer.mState = .GOT_AUTH := by
  simp only [authenticated, List.mem_filter, List.mem_range]
  constructor
  · rintro ⟨hi, h⟩
    obtain ⟨p, hp⟩ : ∃ p, m.peers[i]? = some p := ⟨_, List.getElem?_eq_getElem hi⟩
    exact ⟨p, hp, (isAuthenticated_of hp).mp h⟩
  · rintro ⟨p, hp, h⟩
    exact ⟨(List.getElem?_eq_some_iff.mp hp).1, (isAuthenticated_of hp).mpr h⟩

theorem nodup_authenticated : m.authenticated.Nodup := List.nodup_range.filter _

/-- Lists without repetitions are compared by what is on them. -/
theorem length_authenticated_le {l : List ℕ} (h : ∀ i ∈ m.authenticated, i ∈ l) :
    m.authenticated.length ≤ l.length :=
  (List.Nodup.subperm nodup_authenticated h).length_le

theorem mem_otherPeerIDs (hij : j ≠ i) (hq : m.peers[j]? = some q) (hl : q.peer.listed = true) :
    q.peer.mPeerID ∈ m.otherPeerIDs i := by
  simp only [otherPeerIDs, List.mem_filterMap, List.mem_filter, Option.map_eq_some_iff]
  exact ⟨j, ⟨(mem_mPeers_of hq).mpr hl, by simpa using hij⟩, q, hq, rfl⟩

/-! ## What one action keeps -/

/-- The invariant: no two peers on the list that have said HELLO are connected to the same node. -/
structure Ok (cfg : PeerConfig) (m : OverlayManager) : Prop where
  closing : ∀ (i : ℕ) (p : TCPPeer), m.peers[i]? = some p → p.peer.mState = .CLOSING →
    p.peer.listed = false
  auth : ∀ (i : ℕ) (p : TCPPeer), m.peers[i]? = some p → p.peer.mState = .GOT_AUTH →
    p.peer.listed = true
  distinct : ∀ (i j : ℕ) (p q : TCPPeer), m.peers[i]? = some p → m.peers[j]? = some q → i ≠ j →
    p.peer.listed = true → q.peer.listed = true → p.peer.mState.known = true →
    q.peer.mState.known = true → p.peer.mPeerID ≠ q.peer.mPeerID
  bound : m.authenticated.length ≤ cfg.MAX_PEER_CONNECTIONS

theorem Ok.consistent (h : m.Ok cfg) : m.Consistent cfg where
  auth i p hp hs := (mem_mPeers_of hp).mpr (h.auth i p hp hs)
  closing i p hp hs hmem := by
    rw [mem_mPeers_of hp, h.closing i p hp hs] at hmem
    cases hmem
  distinct i j p q hp hq hij hs hs' :=
    h.distinct i j p q hp hq hij (h.auth i p hp hs) (h.auth j q hq hs') (by rw [hs]; rfl)
      (by rw [hs']; rfl)
  bound := h.bound

/-- A peer is replaced by what it has become. -/
theorem Ok.set (h : m.Ok cfg) {p' : TCPPeer} {peerAuth : PeerAuth} (hp : m.peers[i]? = some p)
    (hclosing : p'.peer.mState = .CLOSING → p'.peer.listed = false)
    (hauth : p'.peer.mState = .GOT_AUTH → p'.peer.listed = true)
    (hdistinct : p'.peer.listed = true → p'.peer.mState.known = true → ∀ (j : ℕ) (q : TCPPeer),
      j ≠ i → m.peers[j]? = some q → q.peer.listed = true → q.peer.mState.known = true →
      p'.peer.mPeerID ≠ q.peer.mPeerID)
    (hbound : { m with peerAuth := peerAuth, peers := m.peers.set i p' }.authenticated.length ≤
      cfg.MAX_PEER_CONNECTIONS) :
    Ok cfg { m with peerAuth := peerAuth, peers := m.peers.set i p' } := by
  have hi : i < m.peers.length := (List.getElem?_eq_some_iff.mp hp).1
  have hget (j : ℕ) (q : TCPPeer) (hq : (m.peers.set i p')[j]? = some q) :
      j = i ∧ q = p' ∨ j ≠ i ∧ m.peers[j]? = some q := by
    by_cases hj : j = i
    · rw [hj, List.getElem?_set_self hi] at hq
      exact Or.inl ⟨hj, (Option.some.inj hq).symm⟩
    · rw [List.getElem?_set_ne (Ne.symm hj)] at hq
      exact Or.inr ⟨hj, hq⟩
  refine ⟨fun j q hq hs => ?_, fun j q hq hs => ?_, fun j k q r hq hr hjk hl hl' hk hk' => ?_,
    hbound⟩
  · rcases hget j q hq with ⟨-, rfl⟩ | ⟨-, hq⟩
    · exact hclosing hs
    · exact h.closing j q hq hs
  · rcases hget j q hq with ⟨-, rfl⟩ | ⟨-, hq⟩
    · exact hauth hs
    · exact h.auth j q hq hs
  · rcases hget j q hq with ⟨rfl, rfl⟩ | ⟨hj, hq'⟩
    · rcases hget k r hr with ⟨rfl, -⟩ | ⟨hk₁, hr'⟩
      · exact absurd rfl hjk
      · exact hdistinct hl hk k r hk₁ hr' hl' hk'
    · rcases hget k r hr with ⟨rfl, rfl⟩ | ⟨-, hr'⟩
      · exact (hdistinct hl' hk' j q hj hq' hl hk).symm
      · exact h.distinct j k q r hq' hr' hjk hl hl' hk hk'

/-- The authenticated peers after one of them is replaced. -/
theorem authenticated_set {p' : TCPPeer} {peerAuth : PeerAuth} (hp : m.peers[i]? = some p)
    (hj : j ∈ { m with peerAuth := peerAuth, peers := m.peers.set i p' }.authenticated) :
    j = i ∧ p'.peer.mState = .GOT_AUTH ∨ j ≠ i ∧ j ∈ m.authenticated := by
  have hi : i < m.peers.length := (List.getElem?_eq_some_iff.mp hp).1
  obtain ⟨q, hq, hs⟩ := mem_authenticated.mp hj
  by_cases hji : j = i
  · rw [hji] at hq
    rw [List.getElem?_set_self hi] at hq
    obtain rfl := Option.some.inj hq
    exact Or.inl ⟨hji, hs⟩
  · rw [List.getElem?_set_ne (Ne.symm hji)] at hq
    exact Or.inr ⟨hji, mem_authenticated.mpr ⟨q, hq, hs⟩⟩

/-- Whatever happens to a peer short of an AUTH. -/
theorem Ok.set_of_not_auth (h : m.Ok cfg) {p' : TCPPeer} {peerAuth : PeerAuth}
    (hp : m.peers[i]? = some p)
    (hclosing : p'.peer.mState = .CLOSING → p'.peer.listed = false)
    (hauth : p'.peer.mState = .GOT_AUTH → p.peer.mState = .GOT_AUTH ∧ p'.peer.listed = true)
    (hdistinct : p'.peer.listed = true → p'.peer.mState.known = true → ∀ (j : ℕ) (q : TCPPeer),
      j ≠ i → m.peers[j]? = some q → q.peer.listed = true → q.peer.mState.known = true →
      p'.peer.mPeerID ≠ q.peer.mPeerID) :
    Ok cfg { m with peerAuth := peerAuth, peers := m.peers.set i p' } := by
  refine h.set hp hclosing (fun hs => (hauth hs).2) hdistinct ?_
  refine (length_authenticated_le fun j hj => ?_).trans h.bound
  rcases authenticated_set hp hj with ⟨rfl, hs⟩ | ⟨-, hj⟩
  · exact mem_authenticated.mpr ⟨p, hp, (hauth hs).1⟩
  · exact hj

/-- A step that is not an accepted AUTH. -/
theorem Ok.moved (h : m.Ok cfg) {s' : Session} {e : Event} (hp : m.peers[i]? = some p)
    (hmoved : Session.Moved app ⟨p.peer, m.peerAuth⟩ e s')
    (hids : ∀ msg env, e = .recvMessage msg env → env.peerIDs = m.otherPeerIDs i)
    (hauth : s'.peer.mState = .GOT_AUTH → p.peer.mState = .GOT_AUTH) :
    Ok cfg
      { m with peerAuth := s'.peerAuth, peers := m.peers.set i { p with peer := s'.peer } } := by
  cases hmoved with
  | same state peerID listed =>
    simp only at state peerID listed
    refine h.set_of_not_auth hp (fun hs => ?_) (fun hs => ?_) fun hl hk j q hj hq hl' hk' => ?_
    · simp only [state, listed] at hs ⊢
      exact h.closing i p hp hs
    · simp only [state, listed] at hs ⊢
      exact ⟨hs, h.auth i p hp hs⟩
    · simp only [state, listed, peerID] at hl hk ⊢
      exact h.distinct i j p q hp hq (Ne.symm hj) hl hl' hk hk'
  | closed state listed =>
    simp only at state listed
    refine h.set_of_not_auth hp (fun _ => ?_) (fun hs => ?_) fun _ hk => ?_
    · rcases listed with listed | ⟨hs, listed⟩
      · exact listed
      · exact listed.trans (h.closing i p hp hs)
    · simp only [state] at hs
      cases hs
    · simp only [state] at hk
      cases hk
  | connected state listed =>
    refine h.set_of_not_auth hp (fun hs => ?_) (fun hs => ?_) fun _ hk => ?_
    · simp only [state] at hs
      cases hs
    · simp only [state] at hs
      cases hs
    · simp only [state] at hk
      cases hk
  | hello msg env event state other listed =>
    refine h.set_of_not_auth hp (fun hs => ?_) (fun hs => ?_) fun _ _ j q hj hq hl' _ heq => ?_
    · simp only [state] at hs
      cases hs
    · simp only [state] at hs
      cases hs
    · rw [hids msg env event] at other
      refine other ?_
      rw [heq]
      exact mem_otherPeerIDs hj hq hl'
  | auth msg env event reading abort message accepted before next state peerID listed =>
    exact absurd (hauth state) before

/-- The peer that gives way is another one. -/
theorem victim_ne {victim : ℕ} (h : (m.asksFor cfg i).2 = some victim) : victim ≠ i := by
  unfold asksFor at h
  simp only at h
  split at h
  · rename_i p hp
    unfold isPeerAccepted at h
    simp only at h
    split_ifs at h with hpref hroom
    split at h
    · rename_i v hv
      obtain rfl : v = victim := Option.some.inj h
      rintro rfl
      have hnot := List.find?_some hv
      simp [hp, hpref] at hnot
    · cases h
  · cases h

/-- Somebody who is accepted without anybody giving way finds room on the list. -/
theorem room_of_accepted (h : (m.asksFor cfg i).1 = true) (hnone : (m.asksFor cfg i).2 = none) :
    m.mPeers.length < cfg.MAX_PEER_CONNECTIONS := by
  have hsame : mPeers { m with peers := m.peers.modify i fun p =>
      { p with peer := { p.peer with mState := .GOT_AUTH } } } = m.mPeers := by
    unfold mPeers
    rw [List.length_modify]
    refine List.filter_congr fun j _ => ?_
    rw [List.getElem?_modify]
    cases m.peers[j]? with
    | none => rfl
    | some q =>
      simp only [Option.any_some]
      split_ifs <;> rfl
  unfold asksFor at h hnone
  simp only at h hnone
  split at h
  · rename_i p hp
    unfold isPeerAccepted at h hnone
    simp only [hsame, hp] at h hnone
    split_ifs at h hnone with hpref hroom
    · exact of_decide_eq_true hroom
    · split at h
      · rename_i v hv
        rw [hv] at hnone
        cases hnone
      · simp only [Bool.and_eq_true] at h
        exact of_decide_eq_true h.2
    · simp only [Bool.and_eq_true] at h
      exact of_decide_eq_true h.2
  · cases h

/-- Taking a peer off the list that is not authenticated. -/
theorem Ok.dropPeer (h : m.Ok cfg) (hauth : m.isAuthenticated i = false) :
    (m.dropPeer i).Ok cfg := by
  have hget (j : ℕ) (q : TCPPeer) (hq : (m.dropPeer i).peers[j]? = some q) :
      ∃ r, m.peers[j]? = some r ∧ q.peer.mState = r.peer.mState ∧
        q.peer.mPeerID = r.peer.mPeerID ∧ (q.peer.listed = true → r.peer.listed = true) ∧
        (q.peer.mState = .GOT_AUTH → q.peer.listed = r.peer.listed) := by
    simp only [OverlayManager.dropPeer, List.getElem?_modify, Option.map_eq_map,
      Option.map_eq_some_iff] at hq
    obtain ⟨r, hr, rfl⟩ := hq
    refine ⟨r, hr, ?_⟩
    by_cases hj : i = j
    · rw [if_pos hj]
      refine ⟨rfl, rfl, by simp, fun hs => ?_⟩
      rw [hj, ← Bool.not_eq_true, isAuthenticated_of hr] at hauth
      exact absurd hs hauth
    · rw [if_neg hj]
      exact ⟨rfl, rfl, id, fun _ => rfl⟩
  refine ⟨fun j q hq hs => ?_, fun j q hq hs => ?_, fun j k q q' hq hq' hjk hl hl' hk hk' => ?_, ?_⟩
  · obtain ⟨r, hr, hstate, -, hlisted, -⟩ := hget j q hq
    by_contra hl
    have := hlisted (by simpa using hl)
    rw [h.closing j r hr (hstate ▸ hs)] at this
    cases this
  · obtain ⟨r, hr, hstate, -, -, hlisted⟩ := hget j q hq
    rw [hlisted hs]
    exact h.auth j r hr (hstate ▸ hs)
  · obtain ⟨r, hr, hstate, hid, hlisted, -⟩ := hget j q hq
    obtain ⟨r', hr', hstate', hid', hlisted', -⟩ := hget k q' hq'
    rw [hid, hid']
    exact h.distinct j k r r' hr hr' hjk (hlisted hl) (hlisted' hl') (hstate ▸ hk) (hstate' ▸ hk')
  · refine (length_authenticated_le fun j hj => ?_).trans h.bound
    obtain ⟨q, hq, hs⟩ := mem_authenticated.mp hj
    obtain ⟨r, hr, hstate, -⟩ := hget j q hq
    exact mem_authenticated.mpr ⟨r, hr, hstate ▸ hs⟩

/-- An AUTH that is accepted, from a peer on the list that has said HELLO, with room for it. -/
theorem Ok.authenticate (h : m.Ok cfg) {s' : Session} (hp : m.peers[i]? = some p)
    (hbefore : p.peer.mState = .GOT_HELLO) (hlisted : p.peer.listed = true)
    (hstate : s'.peer.mState = .GOT_AUTH) (hid : s'.peer.mPeerID = p.peer.mPeerID)
    (hlisted' : s'.peer.listed = p.peer.listed)
    (hroom : m.mPeers.length < cfg.MAX_PEER_CONNECTIONS ∨
      m.authenticated.length < cfg.MAX_PEER_CONNECTIONS) :
    Ok cfg
      { m with peerAuth := s'.peerAuth, peers := m.peers.set i { p with peer := s'.peer } } := by
  refine h.set hp (fun hs => ?_) (fun _ => hlisted'.trans hlisted)
    (fun _ _ j q hj hq hl' hk' => ?_) ?_
  · simp only [hstate] at hs
    cases hs
  · simp only [hid]
    exact h.distinct i j p q hp hq (Ne.symm hj) hlisted hl' (by rw [hbefore]; rfl) hk'
  · rcases hroom with hroom | hroom
    · -- all authenticated peers are on the list
      refine (length_authenticated_le fun j hj => ?_).trans hroom.le
      rcases authenticated_set hp hj with ⟨rfl, -⟩ | ⟨-, hj⟩
      · exact (mem_mPeers_of hp).mpr hlisted
      · obtain ⟨q, hq, hs⟩ := mem_authenticated.mp hj
        exact (mem_mPeers_of hq).mpr (h.auth j q hq hs)
    · refine (length_authenticated_le (l := i :: m.authenticated) fun j hj => ?_).trans hroom
      rcases authenticated_set hp hj with ⟨rfl, -⟩ | ⟨-, hj⟩
      · exact List.mem_cons_self
      · exact List.mem_cons_of_mem _ hj

/-- A step of a peer in which it is not authenticated. -/
theorem Ok.stepAt (h : m.Ok cfg) {e : Event} (he : e ≠ .evict)
    (hids : ∀ msg env, e = .recvMessage msg env → env.peerIDs = m.otherPeerIDs i)
    (hauth : m.isAuthenticated i = false → (m.stepAt app i e).isAuthenticated i = false) :
    (m.stepAt app i e).Ok cfg := by
  unfold OverlayManager.stepAt at hauth ⊢
  cases hp : m.peers[i]? with
  | none => exact h
  | some p =>
    simp only [hp] at hauth ⊢
    have hi : i < m.peers.length := (List.getElem?_eq_some_iff.mp hp).1
    refine h.moved hp (Session.step_moved he) hids fun hs => ?_
    by_contra hne
    have hfalse := hauth (by rw [← Bool.not_eq_true, isAuthenticated_of hp]; exact hne)
    rw [← Bool.not_eq_true, isAuthenticated_of (List.getElem?_set_self hi)] at hfalse
    exact hfalse hs

/-- Events that are not messages authenticate nobody. -/
theorem isAuthenticated_stepAt {e : Event} (he : e ≠ .evict)
    (hmsg : ∀ msg env, e ≠ .recvMessage msg env) (h : m.isAuthenticated i = false) :
    (m.stepAt app i e).isAuthenticated i = false := by
  unfold OverlayManager.stepAt
  cases hp : m.peers[i]? with
  | none => exact h
  | some p =>
    have hi : i < m.peers.length := (List.getElem?_eq_some_iff.mp hp).1
    simp only
    rw [← Bool.not_eq_true, isAuthenticated_of hp] at h
    rw [← Bool.not_eq_true, isAuthenticated_of (List.getElem?_set_self hi)]
    intro hs
    have hmoved : Session.Moved app ⟨p.peer, m.peerAuth⟩ e _ := Session.step_moved he
    cases hmoved with
    | same state => exact h (state.symm.trans hs)
    | closed state =>
      rw [hs] at state
      cases state
    | connected state =>
      rw [hs] at state
      cases state
    | hello msg env event => exact hmsg msg env event
    | auth msg env event => exact hmsg msg env event

theorem Ok.addConnectedPeer (h : m.Ok cfg) (hnew : p.peer.mState.known = false)
    (hopen : p.peer.mState ≠ .CLOSING) : (m.addConnectedPeer p).Ok cfg := by
  have hpush (q : TCPPeer) (hknown : q.peer.mState.known = false)
      (hclosing : q.peer.mState = .CLOSING → q.peer.listed = false) :
      Ok cfg { m with peers := m.peers ++ [q] } := by
    have hget (j : ℕ) (r : TCPPeer) (hr : (m.peers ++ [q])[j]? = some r) :
        m.peers[j]? = some r ∨ r = q := by
      rw [List.getElem?_append] at hr
      split_ifs at hr
      · exact Or.inl hr
      · exact Or.inr (List.mem_singleton.mp (List.mem_of_getElem? hr))
    refine ⟨fun j r hr hs => ?_, fun j r hr hs => ?_,
      fun j k r r' hr hr' hjk hl hl' hk hk' => ?_, ?_⟩
    · rcases hget j r hr with hr | rfl
      · exact h.closing j r hr hs
      · exact hclosing hs
    · rcases hget j r hr with hr | rfl
      · exact h.auth j r hr hs
      · rw [hs] at hknown
        cases hknown
    · rcases hget j r hr with hr | rfl
      · rcases hget k r' hr' with hr' | rfl
        · exact h.distinct j k r r' hr hr' hjk hl hl' hk hk'
        · rw [hknown] at hk'
          cases hk'
      · rw [hknown] at hk
        cases hk
    · refine (length_authenticated_le fun j hj => ?_).trans h.bound
      obtain ⟨r, hr, hs⟩ := mem_authenticated.mp hj
      rcases hget j r hr with hr | rfl
      · exact mem_authenticated.mpr ⟨r, hr, hs⟩
      · rw [hs] at hknown
        cases hknown
  unfold OverlayManager.addConnectedPeer
  split_ifs
  · refine hpush _ ?_ fun _ => ?_
    · rw [Peer.drop_mState]
      rfl
    · simp [Peer.drop, hopen]
  · exact hpush p hnew fun hs => absurd hs hopen

theorem Ok.shutdown (h : m.Ok cfg) : (m.shutdown app).Ok cfg := by
  unfold OverlayManager.shutdown
  split_ifs
  · exact h
  -- whoever is left is closing or off the list
  have hget (j : ℕ) (q : TCPPeer) (hq : (m.peers.map fun p => if p.peer.listed = true then
      { p with peer := p.peer.dropWith app .ERR_MISC "peer shutdown" } else p)[j]? = some q) :
      q.peer.mState ≠ .GOT_AUTH ∧ (q.peer.listed = true → q.peer.mState.known = false) ∧
        (q.peer.mState = .CLOSING → q.peer.listed = false) := by
    rw [List.getElem?_map, Option.map_eq_some_iff] at hq
    obtain ⟨p, hp, rfl⟩ := hq
    have hself : p.peer.Tracks p.peer := .of_eq rfl rfl
    let p' := p.peer.dropWith app .ERR_MISC "peer shutdown"
    have htracks : p.peer.Tracks p' := hself.dropWith .ERR_MISC "peer shutdown"
    have hstate : p'.mState = .CLOSING := Peer.dropWith_mState p.peer .ERR_MISC "peer shutdown"
    split_ifs with hl
    · refine ⟨by rw [hstate]; simp, fun _ => by rw [hstate]; rfl, fun _ => ?_⟩
      rcases htracks.closing hstate with hfalse | ⟨hs, -⟩
      · exact hfalse
      · rw [h.closing j p hp hs] at hl
        cases hl
    · refine ⟨fun hs => hl (h.auth j p hp hs), fun hl' => absurd hl' hl, fun hs => ?_⟩
      exact h.closing j p hp hs
  refine ⟨fun j q hq hs => (hget j q hq).2.2 hs, fun j q hq hs => absurd hs (hget j q hq).1,
    fun j k q q' hq hq' hjk hl hl' hk hk' => ?_, ?_⟩
  · rw [(hget j q hq).2.1 hl] at hk
    cases hk
  · refine (length_authenticated_le (l := []) fun j hj => ?_).trans (Nat.zero_le _)
    obtain ⟨q, hq, hs⟩ := mem_authenticated.mp hj
    exact absurd hs (hget j q hq).1

/-- What an AUTH that is accepted says about the state before. -/
theorem authenticates {msg : AuthenticatedMessage} {timeNow : ℕ}
    {replies : List (PayloadType × ℕ)} (hp : m.peers[i]? = some p)
    (hbefore : m.isAuthenticated i = false)
    (hafter : (m.stepAt app i (.recvMessage msg (m.env cfg i timeNow replies))).isAuthenticated i =
      true) :
    m.Authenticates app p.peer msg ∧ (m.asksFor cfg i).1 = true ∧
      (let s' := Session.step app ⟨p.peer, m.peerAuth⟩
        (.recvMessage msg (m.env cfg i timeNow replies))
      s'.peer.mState = .GOT_AUTH ∧ s'.peer.mPeerID = p.peer.mPeerID ∧
        s'.peer.listed = p.peer.listed) := by
  have hi : i < m.peers.length := (List.getElem?_eq_some_iff.mp hp).1
  unfold OverlayManager.stepAt at hafter
  simp only [hp] at hafter
  rw [← Bool.not_eq_true, isAuthenticated_of hp] at hbefore
  rw [isAuthenticated_of (List.getElem?_set_self hi)] at hafter
  have hmoved : Session.Moved app ⟨p.peer, m.peerAuth⟩
      (.recvMessage msg (m.env cfg i timeNow replies)) _ := Session.step_moved (by simp)
  cases hmoved with
  | same state => exact absurd (state.symm.trans hafter) hbefore
  | closed state =>
    rw [hafter] at state
    cases state
  | connected state =>
    rw [hafter] at state
    cases state
  | hello msg env event state =>
    rw [hafter] at state
    cases state
  | auth msg env event reading abort message accepted before next state peerID listed =>
    cases event
    simp only [Peer.shouldAbort, OverlayManager.env, Bool.or_eq_false_iff,
      decide_eq_false_iff_not] at abort
    exact ⟨⟨reading, abort, message, before, next⟩, accepted, state, peerID, listed⟩

/-- The others stay as they are. -/
theorem isAuthenticated_stepAt_ne {e : Event} (hij : j ≠ i) :
    (m.stepAt app i e).isAuthenticated j = m.isAuthenticated j := by
  unfold OverlayManager.stepAt
  cases m.peers[i]? with
  | none => rfl
  | some p => simp only [isAuthenticated, List.getElem?_set_ne (Ne.symm hij)]

/-- A peer is authenticated, and another one gives way to it or not. -/
theorem Ok.recvAuth (h : m.Ok cfg) {msg : AuthenticatedMessage} {timeNow : ℕ}
    {replies : List (PayloadType × ℕ)} (hbefore : m.isAuthenticated i = false)
    (hafter : (m.stepAt app i (.recvMessage msg (m.env cfg i timeNow replies))).isAuthenticated i =
      true) (hcareful : m.Careful cfg app (.recvMessage i msg timeNow replies)) :
    (m.stepAt app i (.recvMessage msg (m.env cfg i timeNow replies))).Ok cfg ∧
      ∀ victim, (m.asksFor cfg i).2 = some victim → m.isAuthenticated victim = false := by
  cases hp : m.peers[i]? with
  | none =>
    simp only [OverlayManager.stepAt, hp] at hafter
    rw [hbefore] at hafter
    cases hafter
  | some p =>
    obtain ⟨hauth, haccepted, hstate, hid, hlisted⟩ := authenticates hp hbefore hafter
    obtain ⟨hhello, hmem, hvictim⟩ := hcareful p hp hauth haccepted
    refine ⟨?_, fun victim hv => (hvictim victim hv).1⟩
    have hroom : m.mPeers.length < cfg.MAX_PEER_CONNECTIONS ∨
        m.authenticated.length < cfg.MAX_PEER_CONNECTIONS := by
      cases hv : (m.asksFor cfg i).2 with
      | none => exact Or.inl (room_of_accepted haccepted hv)
      | some victim => exact Or.inr (hvictim victim hv).2
    unfold OverlayManager.stepAt
    simp only [hp]
    exact h.authenticate hp hhello ((mem_mPeers_of hp).mp hmem) hstate hid hlisted hroom

theorem Ok.recvMessage (h : m.Ok cfg) {msg : AuthenticatedMessage} {timeNow : ℕ}
    {replies : List (PayloadType × ℕ)}
    (hcareful : m.Careful cfg app (.recvMessage i msg timeNow replies)) :
    (m.act cfg app (.recvMessage i msg timeNow replies)).Ok cfg := by
  simp only [OverlayManager.act]
  split_ifs with hnew
  · obtain ⟨hok, hvictim⟩ := h.recvAuth hnew.1 hnew.2 hcareful
    split
    · rename_i victim hv
      refine hok.dropPeer ?_
      rw [isAuthenticated_stepAt_ne (victim_ne hv)]
      exact hvictim victim hv
    · exact hok
  · refine h.stepAt (by simp) (fun msg env heq => ?_) fun hbefore => ?_
    · cases heq
      rfl
    · by_contra hafter
      exact hnew ⟨hbefore, by simpa using hafter⟩

/-- One action. -/
theorem Ok.act (h : m.Ok cfg) {a : Action} (hcareful : m.Careful cfg app a) :
    (m.act cfg app a).Ok cfg := by
  have hstep (i : ℕ) (e : Event) (he : e ≠ .evict) (hmsg : ∀ msg env, e ≠ .recvMessage msg env) :
      (m.stepAt app i e).Ok cfg :=
    h.stepAt he (fun msg env heq => absurd heq (hmsg msg env)) (isAuthenticated_stepAt he hmsg)
  cases a with
  | connectTo ip port nonce =>
    simp only [OverlayManager.act, connectTo]
    split_ifs
    · exact h
    · exact h
    · exact h
    · exact h.addConnectedPeer rfl (by simp [Peer.create])
  | handleKnock ip nonce => exact h.addConnectedPeer rfl (by simp [Peer.startRead, Peer.create])
  | connectHandler i error timeNow => exact hstep i _ (by simp) (by simp)
  | recvMessage i msg timeNow replies => exact h.recvMessage hcareful
  | recvCorrupt i => exact hstep i _ (by simp) (by simp)
  | drop i => exact hstep i _ (by simp) (by simp)
  | send i type contents => exact hstep i _ (by simp) (by simp)
  | shutdown => exact h.shutdown

theorem Ok.create (peerAuth : PeerAuth) : Ok cfg { peerAuth := peerAuth } where
  closing i p hp := by simp at hp
  auth i p hp := by simp at hp
  distinct i j p q hp := by simp at hp
  bound := Nat.zero_le _

theorem Ok.run (h : m.Ok cfg) (acts : List Action)
    (hcareful : ∀ pre a post, acts = pre ++ a :: post → (m.run cfg app pre).Careful cfg app a) :
    (m.run cfg app acts).Ok cfg := by
  induction acts using List.reverseRecOn with
  | nil => exact h
  | append_singleton acts a ih =>
    rw [run_snoc]
    refine Ok.act (ih fun pre b post heq => ?_) (hcareful acts a [] rfl)
    exact hcareful pre b (post ++ [a]) (by rw [heq]; simp)

/-- In a run whose steps are all careful, the list and the peers go together all the time. -/
theorem peers_consistent (cfg : PeerConfig) (app : Application) (peerAuth : PeerAuth)
    (acts : List Action)
    (hcareful : ∀ pre a post, acts = pre ++ a :: post →
      (run cfg app { peerAuth := peerAuth } pre).Careful cfg app a)
    (pre post : List Action) (heq : acts = pre ++ post) :
    (run cfg app { peerAuth := peerAuth } pre).Consistent cfg := by
  refine (Ok.run (Ok.create peerAuth) pre fun pre' a post' heq' => ?_).consistent
  exact hcareful pre' a (post' ++ post) (by rw [heq, heq']; simp)

/-! ## Two nodes call -/

def isAuth : StellarMessage → Bool
  | .AUTH _ => true
  | _ => false

theorem isAuth_iff {msg : StellarMessage} : isAuth msg = true ↔ ∃ unused, msg = .AUTH unused := by
  cases msg <;> simp [isAuth]

instance (p : Peer) (msg : AuthenticatedMessage) : Decidable (m.Authenticates app p msg) :=
  decidable_of_iff (p.reading = true ∧ (p.mState ≠ .CLOSING ∧ m.mShuttingDown = false) ∧
    isAuth msg.message = true ∧ p.mState ≠ .GOT_AUTH ∧
    (p.mState.gotHello = true → msg.sequence = p.mRecvMacSeq ∧
      msg.mac = app.crypto.hmacSha256 p.mRecvMacKey msg.sequence msg.message))
    ⟨fun ⟨h₁, h₂, h₃, h₄, h₅⟩ => ⟨h₁, h₂, isAuth_iff.mp h₃, h₄, h₅⟩,
      fun ⟨h₁, h₂, h₃, h₄, h₅⟩ => ⟨h₁, h₂, isAuth_iff.mpr h₃, h₄, h₅⟩⟩

instance : DecidablePred (m.Careful cfg app)
  | .recvMessage i msg _ _ =>
    inferInstanceAs (Decidable (∀ p ∈ m.peers[i]?, m.Authenticates app p.peer msg →
      (m.asksFor cfg i).1 = true → p.peer.mState = .GOT_HELLO ∧ i ∈ m.mPeers ∧
        ∀ victim ∈ (m.asksFor cfg i).2, m.isAuthenticated victim = false ∧
          m.authenticated.length < cfg.MAX_PEER_CONNECTIONS))
  | .connectTo .. | .handleKnock .. | .connectHandler .. | .recvCorrupt _ | .drop _ | .send .. |
    .shutdown => isTrue trivial

/-- What a node that calls us sends, once it has received our messages. -/
def toyCaller (seed : ℕ) (msgs : List AuthenticatedMessage) : List AuthenticatedMessage :=
  (Session.run (toyApp seed)
    ⟨Peer.create .WE_CALLED_REMOTE seed, PeerAuth.create (toyApp seed) 0 seed⟩
    (.connectHandler false {} :: msgs.map fun msg => .recvMessage msg {})).peer.sent

def toyConfig (max : ℕ) : PeerConfig where
  MAX_PEER_CONNECTIONS := max
  mPreferredPeers := ["10.0.0.3:11625"]

def toyManager : OverlayManager where
  peerAuth := PeerAuth.create (toyApp 1) 0 3

/-- The next message of the node that is our peer number `i`. -/
def toyNext (max : ℕ) (acts : List Action) (i n seed : ℕ) : List Action :=
  let sent := ((toyManager.run (toyConfig max) (toyApp 1) acts).peers.map fun p => p.peer.sent)[i]?
  (toyCaller seed (sent.getD []))[n]?.toList.map fun msg => .recvMessage i msg 0 []

/-- A node calls: its HELLO comes, and its AUTH once it has ours. -/
def toyKnock (max : ℕ) (acts : List Action) (i seed : ℕ) : List Action :=
  let acts := acts ++ [.handleKnock ("10.0.0." ++ seed.repr) seed]
  let acts := acts ++ toyNext max acts i 0 seed
  acts ++ toyNext max acts i 1 seed

/-- First a node that is not preferred, then one that is. -/
def toyKnocks (max : ℕ) : List Action := toyKnock max (toyKnock max [] 0 2) 1 3

/-- With room for both of them, both are authenticated. -/
theorem peers_consistent_toyKnocks :
    (toyManager.run (toyConfig 3) (toyApp 1) (toyKnocks 3)).authenticated = [0, 1] ∧
    (∀ pre a post, toyKnocks 3 = pre ++ a :: post →
      (toyManager.run (toyConfig 3) (toyApp 1) pre).Careful (toyConfig 3) (toyApp 1) a) ∧
    ∀ pre post, toyKnocks 3 = pre ++ post →
      (toyManager.run (toyConfig 3) (toyApp 1) pre).Consistent (toyConfig 3) := by
  have hcheck : ∀ k ∈ List.range (toyKnocks 3).length, ∀ a ∈ (toyKnocks 3)[k]?,
      (toyManager.run (toyConfig 3) (toyApp 1) ((toyKnocks 3).take k)).Careful (toyConfig 3)
        (toyApp 1) a := by
    decide +kernel
  have hcareful (pre : List Action) (a : Action) (post : List Action)
      (heq : toyKnocks 3 = pre ++ a :: post) :
      (toyManager.run (toyConfig 3) (toyApp 1) pre).Careful (toyConfig 3) (toyApp 1) a := by
    have h := hcheck pre.length (by simp [heq]) a (by simp [heq])
    rw [heq, List.take_left] at h
    exact h
  exact ⟨by decide +kernel, hcareful,
    peers_consistent (toyConfig 3) (toyApp 1) _ (toyKnocks 3) hcareful⟩

/-- With room for one less, the first one gives way to the preferred one. It is taken off the list,
but it is still authenticated. -/
theorem evicted_stays_authenticated :
    ¬ (toyManager.run (toyConfig 2) (toyApp 1) (toyKnocks 2)).Consistent (toyConfig 2) := by
  have hfirst : ∃ p, (toyManager.run (toyConfig 2) (toyApp 1) (toyKnocks 2)).peers[0]? = some p ∧
      p.peer.mState = .GOT_AUTH ∧ p.peer.listed = false := by
    have h : ((toyManager.run (toyConfig 2) (toyApp 1) (toyKnocks 2)).peers[0]?).any (fun p =>
        decide (p.peer.mState = .GOT_AUTH ∧ p.peer.listed = false)) = true := by
      decide +kernel
    simpa only [Option.any_eq_true, decide_eq_true_eq] using h
  obtain ⟨p, hp, hs, hl⟩ := hfirst
  intro h
  have hlisted := (mem_mPeers_of hp).mp (h.auth 0 p hp hs)
  rw [hl] at hlisted
  cases hlisted

end OverlayManager

end SmartCore.Overlay
