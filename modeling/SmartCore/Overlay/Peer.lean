import Mathlib.Data.List.Induction
import Mathlib.Data.Nat.Pairing
import SmartCore.Overlay.PeerAuth

/-!
# Peers

One end of a connection. `Peer` is the state machine of the handshake: HELLO, then AUTH, then
everything else, and CLOSING once the peer is dropped. Messages come from anybody, with any sequence
number and any MAC.

What the handshake is for:

* a peer is only authenticated after a HELLO with an accepted certificate and an AUTH under the keys
  that HELLO gave,
* every other message is handed to its handler with a checked MAC, and
* a peer that was dropped stays dropped.

The code keeps each of them up to one kind of step. An AUTH that comes before the HELLO is accepted
without a check, an ERROR_MSG is never checked, and a connection that is established after the peer
was dropped makes it CONNECTED again (`unauthentic_runs`).

Main result: `authentic_iff`. These three kinds of steps are all that can go wrong.
-/

namespace SmartCore.Overlay

open SCP (Uint32)

/-! ## The state -/

inductive PeerState where
  | CONNECTING
  | CONNECTED
  | GOT_HELLO
  | GOT_AUTH
  | CLOSING
deriving DecidableEq, Repr

/-- `mState >= GOT_HELLO`. -/
def PeerState.gotHello : PeerState → Bool
  | CONNECTING | CONNECTED => false
  | GOT_HELLO | GOT_AUTH | CLOSING => true

/-- A `TCPPeer`. `connecting` says that the handler of the connection was not called yet, `reading`
that a read is going on, and `listed` that the peer is one of the overlay manager's. `sent` is what
was ever put into the write queue. No function reads `keyed`, whether a HELLO has given the keys, nor
`handed`, the messages that were handed to handlers and whether their MAC was checked. -/
structure Peer where
  mRole : PeerRole
  mState : PeerState
  mPeerID : NodeID := 0
  mSendNonce : Nonce
  mRecvNonce : Nonce := 0
  mSendMacKey : HmacSha256Key := 0
  mRecvMacKey : HmacSha256Key := 0
  mSendMacSeq : UInt64 := 0
  mRecvMacSeq : UInt64 := 0
  mRemoteVersion : String := ""
  mRemoteOverlayMinVersion : Uint32 := 0
  mRemoteOverlayVersion : Uint32 := 0
  mRemoteListeningPort : UInt16 := 0
  connecting : Bool
  reading : Bool
  listed : Bool := true
  sent : List AuthenticatedMessage := []
  keyed : Bool := false
  handed : List (StellarMessage × Bool) := []
deriving DecidableEq

/-- `TCPPeer::initiate` starts to connect, `TCPPeer::accept` to read. -/
def Peer.create (role : PeerRole) (nonce : Nonce) : Peer where
  mRole := role
  mState := if role = .WE_CALLED_REMOTE then .CONNECTING else .CONNECTED
  mSendNonce := nonce
  connecting := decide (role = .WE_CALLED_REMOTE)
  reading := decide (role = .REMOTE_CALLED_US)

/-- A peer, with the `PeerAuth` of the node. -/
structure Session where
  peer : Peer
  peerAuth : PeerAuth
deriving DecidableEq

/-- What the rest of the node says while a handler runs: the time, whether the overlay shuts down,
whether it accepts the peer, the nodes its other peers are connected to, and the messages that the
handlers behind the peer send to it. -/
structure Env where
  timeNow : ℕ := 0
  isShuttingDown : Bool := false
  isPeerAccepted : Bool := true
  peerIDs : List NodeID := []
  replies : List (PayloadType × ℕ) := []
deriving DecidableEq

/-! ## Sending and dropping -/

/-- Does the message carry a sequence number and a MAC? -/
def StellarMessage.isSealed : StellarMessage → Bool
  | HELLO _ | ERROR_MSG .. => false
  | _ => true

def StellarMessage.isError : StellarMessage → Bool
  | ERROR_MSG .. => true
  | _ => false

namespace Peer

variable (app : Application) (p : Peer)

def isAuthenticated : Bool := decide (p.mState = .GOT_AUTH)

def shouldAbort (env : Env) : Bool := decide (p.mState = .CLOSING) || env.isShuttingDown

/-- The message as it is written. -/
def sealMessage (msg : StellarMessage) : AuthenticatedMessage :=
  if msg.isSealed then ⟨p.mSendMacSeq, msg, app.crypto.hmacSha256 p.mSendMacKey p.mSendMacSeq msg⟩
  else ⟨0, msg, 0⟩

def sendMessage (msg : StellarMessage) : Peer :=
  { p with
    sent := p.sent ++ [p.sealMessage app msg]
    mSendMacSeq := if msg.isSealed then p.mSendMacSeq + 1 else p.mSendMacSeq }

/-- `TCPPeer::drop`. -/
def drop : Peer := if p.mState = .CLOSING then p else { p with mState := .CLOSING, listed := false }

/-- `drop`, after telling the remote node why. -/
def dropWith (err : ErrorCode) (msg : String) : Peer :=
  (p.sendMessage app (.ERROR_MSG err msg)).drop

def sendAuth : Peer := p.sendMessage app (.AUTH 0)

/-- What handlers send. -/
def sendReplies (replies : List (PayloadType × ℕ)) : Peer :=
  replies.foldl (fun p r => p.sendMessage app (.payload r.1 r.2)) p

/-- `TCPPeer::startRead`. -/
def startRead (env : Env) : Peer := { p with reading := !p.shouldAbort env }

end Peer

namespace Session

variable (app : Application) (env : Env) (s : Session)

def sendHello : Session :=
  let (cert, peerAuth) := s.peerAuth.getAuthCert app env.timeNow
  { peer := s.peer.sendMessage app (.HELLO
      { ledgerVersion := app.LEDGER_PROTOCOL_VERSION
        overlayMinVersion := app.OVERLAY_PROTOCOL_MIN_VERSION
        overlayVersion := app.OVERLAY_PROTOCOL_VERSION
        versionStr := app.VERSION_STR
        networkID := app.networkID
        listeningPort := app.PEER_PORT.toNat
        peerID := app.crypto.getPublicKey app.NODE_SEED
        cert := cert
        nonce := s.peer.mSendNonce })
    peerAuth := peerAuth }

/-! ## Receiving -/

/-- Is the remote version one we can talk to? -/
def compatible (elo : Hello) : Bool :=
  decide (elo.overlayMinVersion ≤ elo.overlayVersion) &&
    decide (app.OVERLAY_PROTOCOL_MIN_VERSION ≤ elo.overlayVersion) &&
    decide (elo.overlayMinVersion ≤ app.OVERLAY_PROTOCOL_VERSION)

/-- The two keys that a HELLO gives, in the order in which they are computed. -/
def helloKeys (elo : Hello) : HmacSha256Key × HmacSha256Key × PeerAuth :=
  let (sendKey, peerAuth) := s.peerAuth.getSendingMacKey app elo.cert.pubkey s.peer.mSendNonce
    elo.nonce s.peer.mRole
  let (recvKey, peerAuth) := peerAuth.getReceivingMacKey app elo.cert.pubkey s.peer.mSendNonce
    elo.nonce s.peer.mRole
  (sendKey, recvKey, peerAuth)

/-- The peer once the certificate of a HELLO is verified. -/
def acceptHello (elo : Hello) : Session :=
  let keys := s.helloKeys app elo
  { peer :=
      { s.peer with
        mRemoteListeningPort := UInt16.ofInt elo.listeningPort
        mRemoteOverlayMinVersion := elo.overlayMinVersion
        mRemoteOverlayVersion := elo.overlayVersion
        mRemoteVersion := elo.versionStr
        mPeerID := elo.peerID
        mRecvNonce := elo.nonce
        mSendMacSeq := 0
        mRecvMacSeq := 0
        mSendMacKey := keys.1
        mRecvMacKey := keys.2.1
        keyed := true
        mState := .GOT_HELLO }
    peerAuth := keys.2.2 }

/-- The rest of `recvHello`. -/
def checkHello (elo : Hello) : Peer :=
  if compatible app elo = false then s.peer.dropWith app .ERR_CONF "wrong protocol version"
  else if elo.peerID = app.crypto.getPublicKey app.NODE_SEED then
    s.peer.dropWith app .ERR_CONF "connecting to self"
  else if elo.networkID ≠ app.networkID then
    s.peer.dropWith app .ERR_CONF "wrong network passphrase"
  else if elo.peerID ∈ env.peerIDs then
    s.peer.dropWith app .ERR_CONF "connecting already-connected peer"
  else if elo.listeningPort ≤ 0 ∨ 65535 < elo.listeningPort then
    s.peer.dropWith app .ERR_CONF "bad port number"
  else if s.peer.mRole = .WE_CALLED_REMOTE then s.peer.sendAuth app
  else s.peer

def recvHello (elo : Hello) : Session :=
  if s.peer.mState.gotHello then { s with peer := s.peer.drop }
  else if PeerAuth.verifyRemoteAuthCert app env.timeNow elo.peerID elo.cert = false then
    { s with peer := s.peer.drop }
  else
    let s := s.acceptHello app elo
    -- a HELLO goes back even if it is going to be followed by an error
    let s := if s.peer.mRole = .REMOTE_CALLED_US then s.sendHello app env else s
    { s with peer := s.checkHello app env elo }

def recvAuth : Peer :=
  if s.peer.isAuthenticated then s.peer.dropWith app .ERR_MISC "out-of-order AUTH message"
  else
    let p := { s.peer with mState := .GOT_AUTH }
    if env.isPeerAccepted = false then p.dropWith app .ERR_LOAD "peer rejected"
    else
      let p := if p.mRole = .REMOTE_CALLED_US then p.sendAuth app else p
      -- the peers we know, and the state of the consensus
      p.sendReplies app env.replies

/-- `recvMessage(StellarMessage)`. `checked` is only recorded. -/
def recvStellarMessage (checked : Bool) (msg : StellarMessage) : Session :=
  if s.peer.shouldAbort env then s
  else
    let s' := { s with peer := { s.peer with handed := s.peer.handed ++ [(msg, checked)] } }
    match msg with
    | .ERROR_MSG .. => { s' with peer := s'.peer.drop }
    | .HELLO elo => s'.recvHello app env elo
    | .AUTH _ => { s' with peer := s'.recvAuth app env }
    | .payload .. =>
      if s.peer.isAuthenticated = false then { s with peer := s.peer.drop }
      else { s' with peer := s'.peer.sendReplies app env.replies }

/-- `recvMessage(AuthenticatedMessage)`. -/
def recvMessage (msg : AuthenticatedMessage) : Session :=
  if s.peer.shouldAbort env then s
  else if s.peer.mState.gotHello && !msg.message.isError then
    let s' := { s with peer := { s.peer with mRecvMacSeq := s.peer.mRecvMacSeq + 1 } }
    if msg.sequence ≠ s.peer.mRecvMacSeq then
      { s' with peer := s'.peer.dropWith app .ERR_AUTH "unexpected auth sequence" }
    else if msg.mac ≠ app.crypto.hmacSha256 s.peer.mRecvMacKey msg.sequence msg.message then
      { s' with peer := s'.peer.dropWith app .ERR_AUTH "unexpected MAC" }
    else s'.recvStellarMessage app env true msg.message
  else s.recvStellarMessage app env false msg.message

/-- `Peer::connectHandler`. -/
def connectHandler (error : Bool) : Session :=
  let s := { s with peer := { s.peer with connecting := false } }
  if error then { s with peer := s.peer.drop }
  else
    let p := s.peer.startRead env
    sendHello app env { s with peer := { p with mState := .CONNECTED } }

end Session

/-! ## Runs -/

/-- What happens to a peer: the handler of the connection is called, a message arrives or one that
cannot be decoded, the peer is dropped (for a timeout, an error of the socket, or to shed load), the
overlay shuts down or takes the peer off its list, something is to be sent to it, or another peer of
the node needs a key. -/
inductive Event where
  | connectHandler (error : Bool) (env : Env)
  | recvMessage (msg : AuthenticatedMessage) (env : Env)
  | recvCorrupt (env : Env)
  | drop
  | shutdown
  | evict
  | send (type : PayloadType) (contents : ℕ)
  | getSharedKey (remotePublic : Curve25519Public) (role : PeerRole)
deriving DecidableEq

namespace Session

variable (app : Application) (s : Session)

/-- The connection is established once, and messages only arrive while a read is going on. Payloads
are only sent to authenticated peers. -/
def step : Event → Session
  | .connectHandler error env => if s.peer.connecting then s.connectHandler app env error else s
  | .recvMessage msg env =>
    if s.peer.reading then
      let s := s.recvMessage app env msg
      { s with peer := s.peer.startRead env }
    else s
  | .recvCorrupt env =>
    if s.peer.reading then
      { s with peer := (s.peer.dropWith app .ERR_DATA "received corrupt XDR").startRead env }
    else s
  | .drop => { s with peer := s.peer.drop }
  | .shutdown => { s with peer := s.peer.dropWith app .ERR_MISC "peer shutdown" }
  | .evict => { s with peer := { s.peer with listed := false } }
  | .send type contents =>
    if s.peer.isAuthenticated then
      { s with peer := s.peer.sendMessage app (.payload type contents) }
    else s
  | .getSharedKey remotePublic role =>
    { s with peerAuth := (s.peerAuth.getSharedKey app remotePublic role).2 }

/-- A run. -/
def run (es : List Event) : Session := es.foldl (step app) s

theorem run_append (es es' : List Event) : s.run app (es ++ es') = (s.run app es).run app es' :=
  List.foldl_append

theorem run_snoc (es : List Event) (e : Event) :
    s.run app (es ++ [e]) = (s.run app es).step app e := by
  rw [run_append]
  rfl

end Session

/-! ## What a run has to keep -/

section Authentic

variable (app : Application) (s₀ : Session)

/-- After the events `es`, a HELLO with an accepted certificate, the right network and a compatible
version takes the peer to GOT_HELLO. -/
structure HelloAccepted (es : List Event) (msg : AuthenticatedMessage) (env : Env) (elo : Hello) :
    Prop where
  hello : msg.message = .HELLO elo
  cert : PeerAuth.verifyRemoteAuthCert app env.timeNow elo.peerID elo.cert = true
  network : elo.networkID = app.networkID
  version : Session.compatible app elo = true
  gotHello : (s₀.run app (es ++ [.recvMessage msg env])).peer.mState = .GOT_HELLO

/-- After the events `es`, an AUTH with the expected sequence number and a MAC under `key` takes the
peer to GOT_AUTH. -/
structure AuthChecked (es : List Event) (msg : AuthenticatedMessage) (env : Env)
    (key : HmacSha256Key) : Prop where
  auth : ∃ unused, msg.message = .AUTH unused
  before : (s₀.run app es).peer.mState = .GOT_HELLO
  sequence : msg.sequence = (s₀.run app es).peer.mRecvMacSeq
  mac : msg.mac = app.crypto.hmacSha256 key msg.sequence msg.message
  gotAuth : (s₀.run app (es ++ [.recvMessage msg env])).peer.mState = .GOT_AUTH

/-- The events contain a HELLO that was accepted for the recorded node, and after it an AUTH that was
checked under the key that HELLO gave. -/
def Authenticated (es : List Event) : Prop :=
  ∃ es₁ hello env₁ elo es₂ auth env₂ es₃,
    es = es₁ ++ .recvMessage hello env₁ :: (es₂ ++ .recvMessage auth env₂ :: es₃) ∧
    HelloAccepted app s₀ es₁ hello env₁ elo ∧
    (s₀.run app es).peer.mPeerID = elo.peerID ∧
    AuthChecked app s₀ (es₁ ++ .recvMessage hello env₁ :: es₂) auth env₂
      ((s₀.run app es₁).helloKeys app elo).2.1

/-- A message that is no part of the handshake, handed over in the next step. -/
structure Checked (es : List Event) (e : Event) (msg : StellarMessage) (checked : Bool) : Prop where
  checked : checked = true
  state : (s₀.run app es).peer.mState = .GOT_AUTH
  received : ∃ am env, e = .recvMessage am env ∧ am.message = msg ∧
    am.sequence = (s₀.run app es).peer.mRecvMacSeq ∧
    am.mac = app.crypto.hmacSha256 (s₀.run app es).peer.mRecvMacKey am.sequence am.message

/-- What a run has to keep, in all its states and steps. -/
structure Authentic (es : List Event) : Prop where
  auth : ∀ pre post, es = pre ++ post → (s₀.run app pre).peer.mState = .GOT_AUTH →
    Authenticated app s₀ pre
  handed : ∀ pre e post, es = pre ++ e :: post → ∀ msg checked,
    (s₀.run app (pre ++ [e])).peer.handed = (s₀.run app pre).peer.handed ++ [(msg, checked)] →
    (∀ elo, msg ≠ .HELLO elo) → (∀ unused, msg ≠ .AUTH unused) → Checked app s₀ pre e msg checked
  closing : ∀ pre mid post, es = pre ++ mid ++ post →
    (s₀.run app pre).peer.mState = .CLOSING → (s₀.run app (pre ++ mid)).peer.mState = .CLOSING

/-- The steps that do no harm. -/
def Session.Orderly (s : Session) : Event → Prop
  -- no connection is established after the peer was dropped
  | .connectHandler error _ => s.peer.connecting → s.peer.mState = .CLOSING → error = true
  | .recvMessage msg env => s.peer.reading → s.peer.shouldAbort env = false →
    -- there is no ERROR_MSG, and no AUTH that is accepted before the HELLO
    msg.message.isError = false ∧
      ((∃ unused, msg.message = .AUTH unused) → env.isPeerAccepted = true →
        s.peer.mState.gotHello = true)
  | _ => True

end Authentic

/-! ## One message -/

/-- What no message changes once the keys are there. -/
structure Peer.Kept (p p' : Peer) : Prop where
  peerID : p'.mPeerID = p.mPeerID
  recvKey : p'.mRecvMacKey = p.mRecvMacKey
  connecting : p'.connecting = p.connecting

namespace Peer

variable {app : Application} (p : Peer)

theorem drop_mState : p.drop.mState = .CLOSING := by
  unfold drop
  split_ifs with h
  · exact h
  · rfl

theorem drop_kept : p.Kept p.drop ∧ p.drop.handed = p.handed ∧ p.drop.reading = p.reading := by
  unfold drop
  split_ifs
  · exact ⟨⟨rfl, rfl, rfl⟩, rfl, rfl⟩
  · exact ⟨⟨rfl, rfl, rfl⟩, rfl, rfl⟩

theorem dropWith_mState (err : ErrorCode) (text : String) :
    (p.dropWith app err text).mState = .CLOSING :=
  drop_mState _

theorem dropWith_kept (err : ErrorCode) (text : String) :
    p.Kept (p.dropWith app err text) ∧ (p.dropWith app err text).handed = p.handed := by
  obtain ⟨⟨hid, hkey, hconn⟩, hhanded, -⟩ := drop_kept (p.sendMessage app (.ERROR_MSG err text))
  exact ⟨⟨hid, hkey, hconn⟩, hhanded⟩

theorem sendReplies_kept (replies : List (PayloadType × ℕ)) :
    p.Kept (p.sendReplies app replies) ∧ (p.sendReplies app replies).mState = p.mState ∧
      (p.sendReplies app replies).handed = p.handed := by
  induction replies generalizing p with
  | nil => exact ⟨⟨rfl, rfl, rfl⟩, rfl, rfl⟩
  | cons r replies ih =>
    obtain ⟨⟨hid, hkey, hconn⟩, hstate, hhanded⟩ := ih (p.sendMessage app (.payload r.1 r.2))
    exact ⟨⟨hid, hkey, hconn⟩, hstate, hhanded⟩

end Peer

namespace Session

variable {app : Application} {env : Env} {s : Session}

/-- The four ways in which a message that is not ignored is handled. `next` says whether it has the
next sequence number and a right MAC. -/
inductive Received (app : Application) (env : Env) (msg : AuthenticatedMessage) (s s' : Session) :
    Prop where
  | closing (state : s'.peer.mState = .CLOSING) (connecting : s'.peer.connecting = s.peer.connecting)
      (handed : s'.peer.handed = s.peer.handed ∨ ∃ checked,
        s'.peer.handed = s.peer.handed ++ [(msg.message, checked)] ∧
        ∀ type contents, msg.message ≠ .payload type contents)
      (error : msg.message.isError = true →
        s'.peer.handed = s.peer.handed ++ [(msg.message, false)])
  | hello (elo : Hello) (message : msg.message = .HELLO elo)
      (before : s.peer.mState.gotHello = false)
      (cert : PeerAuth.verifyRemoteAuthCert app env.timeNow elo.peerID elo.cert = true)
      (network : elo.networkID = app.networkID) (version : compatible app elo = true)
      (state : s'.peer.mState = .GOT_HELLO) (connecting : s'.peer.connecting = s.peer.connecting)
      (peerID : s'.peer.mPeerID = elo.peerID) (key : s'.peer.mRecvMacKey = (s.helloKeys app elo).2.1)
      (handed : s'.peer.handed = s.peer.handed ++ [(msg.message, false)])
      (other : elo.peerID ∉ env.peerIDs)
  | auth (unused : ℤ) (checked : Bool) (message : msg.message = .AUTH unused)
      (accepted : env.isPeerAccepted = true) (before : s.peer.mState ≠ .GOT_AUTH)
      (next : s.peer.mState.gotHello = true → msg.sequence = s.peer.mRecvMacSeq ∧
        msg.mac = app.crypto.hmacSha256 s.peer.mRecvMacKey msg.sequence msg.message)
      (state : s'.peer.mState = .GOT_AUTH) (kept : s.peer.Kept s'.peer)
      (handed : s'.peer.handed = s.peer.handed ++ [(msg.message, checked)])
  | payload (type : PayloadType) (contents : ℕ) (message : msg.message = .payload type contents)
      (before : s.peer.mState = .GOT_AUTH)
      (next : msg.sequence = s.peer.mRecvMacSeq ∧
        msg.mac = app.crypto.hmacSha256 s.peer.mRecvMacKey msg.sequence msg.message)
      (state : s'.peer.mState = .GOT_AUTH) (kept : s.peer.Kept s'.peer)
      (handed : s'.peer.handed = s.peer.handed ++ [(msg.message, true)])

/-- A HELLO is accepted with everything right about it, or the peer is dropped. -/
theorem recvHello_cases (elo : Hello) :
    (s.recvHello app env elo).peer.connecting = s.peer.connecting ∧
      (s.recvHello app env elo).peer.handed = s.peer.handed ∧
      ((s.recvHello app env elo).peer.mState = .CLOSING ∨
        (s.peer.mState.gotHello = false ∧
          PeerAuth.verifyRemoteAuthCert app env.timeNow elo.peerID elo.cert = true ∧
          elo.networkID = app.networkID ∧ compatible app elo = true ∧ elo.peerID ∉ env.peerIDs ∧
          (s.recvHello app env elo).peer.mState = .GOT_HELLO ∧
          (s.recvHello app env elo).peer.mPeerID = elo.peerID ∧
          (s.recvHello app env elo).peer.mRecvMacKey = (s.helloKeys app elo).2.1)) := by
  have hdrop := s.peer.drop_kept
  unfold recvHello
  by_cases hgot : s.peer.mState.gotHello = true
  · rw [if_pos hgot]
    exact ⟨hdrop.1.connecting, hdrop.2.1, Or.inl (Peer.drop_mState _)⟩
  rw [if_neg hgot]
  by_cases hcert : PeerAuth.verifyRemoteAuthCert app env.timeNow elo.peerID elo.cert = false
  · rw [if_pos hcert]
    exact ⟨hdrop.1.connecting, hdrop.2.1, Or.inl (Peer.drop_mState _)⟩
  rw [if_neg hcert]
  -- the peer before the last checks
  obtain ⟨t, ht⟩ : ∃ t, t = if (s.acceptHello app elo).peer.mRole = .REMOTE_CALLED_US then
      (s.acceptHello app elo).sendHello app env else s.acceptHello app elo := ⟨_, rfl⟩
  have hfields : t.peer.connecting = s.peer.connecting ∧ t.peer.handed = s.peer.handed ∧
      t.peer.mState = .GOT_HELLO ∧ t.peer.mPeerID = elo.peerID ∧
      t.peer.mRecvMacKey = (s.helloKeys app elo).2.1 := by
    rw [ht]
    split_ifs <;> exact ⟨rfl, rfl, rfl, rfl, rfl⟩
  simp only
  rw [← ht]
  obtain ⟨hconn, hhanded, hstate, hid, hkey⟩ := hfields
  have hclosed : ∀ text, (t.peer.dropWith app .ERR_CONF text).connecting = s.peer.connecting ∧
      (t.peer.dropWith app .ERR_CONF text).handed = s.peer.handed ∧
      (t.peer.dropWith app .ERR_CONF text).mState = .CLOSING := by
    intro text
    obtain ⟨hkept, hhanded'⟩ := t.peer.dropWith_kept .ERR_CONF text
    exact ⟨hkept.connecting.trans hconn, hhanded'.trans hhanded, Peer.dropWith_mState _ _ _⟩
  unfold checkHello
  split_ifs with hversion hself hnetwork hother hport hrole
  · exact ⟨(hclosed _).1, (hclosed _).2.1, Or.inl (hclosed _).2.2⟩
  · exact ⟨(hclosed _).1, (hclosed _).2.1, Or.inl (hclosed _).2.2⟩
  · exact ⟨(hclosed _).1, (hclosed _).2.1, Or.inl (hclosed _).2.2⟩
  · exact ⟨(hclosed _).1, (hclosed _).2.1, Or.inl (hclosed _).2.2⟩
  · exact ⟨(hclosed _).1, (hclosed _).2.1, Or.inl (hclosed _).2.2⟩
  · exact ⟨hconn, hhanded, Or.inr ⟨by simpa using hgot, by simpa using hcert, not_not.mp hnetwork,
      by simpa using hversion, hother, hstate, hid, hkey⟩⟩
  · exact ⟨hconn, hhanded, Or.inr ⟨by simpa using hgot, by simpa using hcert, not_not.mp hnetwork,
      by simpa using hversion, hother, hstate, hid, hkey⟩⟩

theorem recvAuth_cases :
    s.peer.Kept (s.recvAuth app env) ∧ (s.recvAuth app env).handed = s.peer.handed ∧
      ((s.recvAuth app env).mState = .CLOSING ∨
        (env.isPeerAccepted = true ∧ s.peer.mState ≠ .GOT_AUTH ∧
          (s.recvAuth app env).mState = .GOT_AUTH)) := by
  simp only [recvAuth]
  split_ifs with hauth haccepted hrole
  · obtain ⟨hkept, hhanded⟩ := s.peer.dropWith_kept .ERR_MISC
      "out-of-order AUTH message"
    exact ⟨hkept, hhanded, Or.inl (Peer.dropWith_mState _ _ _)⟩
  · obtain ⟨⟨hid, hkey, hconn⟩, hhanded⟩ := Peer.dropWith_kept
      { s.peer with mState := .GOT_AUTH } .ERR_LOAD "peer rejected"
    exact ⟨⟨hid, hkey, hconn⟩, hhanded, Or.inl (Peer.dropWith_mState _ _ _)⟩
  · obtain ⟨⟨hid, hkey, hconn⟩, hstate, hhanded⟩ := Peer.sendReplies_kept
      (Peer.sendAuth app { s.peer with mState := .GOT_AUTH }) env.replies
    exact ⟨⟨hid, hkey, hconn⟩, hhanded, Or.inr ⟨by simpa using haccepted,
      by simpa [Peer.isAuthenticated] using hauth, hstate⟩⟩
  · obtain ⟨⟨hid, hkey, hconn⟩, hstate, hhanded⟩ := Peer.sendReplies_kept
      { s.peer with mState := .GOT_AUTH } env.replies
    exact ⟨⟨hid, hkey, hconn⟩, hhanded, Or.inr ⟨by simpa using haccepted,
      by simpa [Peer.isAuthenticated] using hauth, hstate⟩⟩

/-- The expected number moves on before the message is handled. -/
def setRecvMacSeq (s : Session) (n : UInt64) : Session :=
  { s with peer := { s.peer with mRecvMacSeq := n } }

theorem recvStellarMessage_cases {msg : AuthenticatedMessage} {checked : Bool} {n : UInt64}
    (habort : s.peer.shouldAbort env = false)
    (hchecked : checked = (s.peer.mState.gotHello && !msg.message.isError))
    (hnext : checked = true → msg.sequence = s.peer.mRecvMacSeq ∧
      msg.mac = app.crypto.hmacSha256 s.peer.mRecvMacKey msg.sequence msg.message) :
    Received app env msg s ((s.setRecvMacSeq n).recvStellarMessage app env checked msg.message) := by
  have habort' : (s.setRecvMacSeq n).peer.shouldAbort env = false := habort
  simp only [recvStellarMessage]
  rw [if_neg (by simp [habort'])]
  cases hmsg : msg.message with
  | ERROR_MSG code text =>
    obtain ⟨hkept, hhanded, -⟩ := Peer.drop_kept
      { (s.setRecvMacSeq n).peer with
        handed := s.peer.handed ++ [(.ERROR_MSG code text, checked)] }
    obtain rfl : checked = false := by simp [hchecked, hmsg, StellarMessage.isError]
    refine .closing (Peer.drop_mState _) hkept.connecting (Or.inr ⟨false, ?_, ?_⟩) fun _ => ?_
    · rw [hmsg]
      exact hhanded
    · simp [hmsg]
    · rw [hmsg]
      exact hhanded
  | HELLO elo =>
    obtain ⟨hconn, hhanded, hcases⟩ := recvHello_cases
      (s := { s.setRecvMacSeq n with
        peer := { (s.setRecvMacSeq n).peer with
          handed := s.peer.handed ++ [(.HELLO elo, checked)] } }) elo
    rcases hcases with hclosing | ⟨hbefore, hcert, hnetwork, hversion, hother, hstate, hid, hkey⟩
    · refine .closing hclosing hconn (Or.inr ⟨checked, ?_, ?_⟩) ?_
      · rw [hmsg]
        exact hhanded
      · simp [hmsg]
      · simp [hmsg, StellarMessage.isError]
    · refine .hello elo hmsg hbefore hcert hnetwork hversion hstate hconn hid hkey ?_ hother
      have hgot : s.peer.mState.gotHello = false := hbefore
      obtain rfl : checked = false := by simp [hchecked, hgot]
      rw [hmsg]
      exact hhanded
  | AUTH unused =>
    obtain ⟨⟨hid, hkey, hconn⟩, hhanded, hcases⟩ := recvAuth_cases
      (s := { s.setRecvMacSeq n with
        peer := { (s.setRecvMacSeq n).peer with
          handed := s.peer.handed ++ [(.AUTH unused, checked)] } })
    rcases hcases with hclosing | ⟨haccepted, hbefore, hstate⟩
    · refine .closing hclosing hconn (Or.inr ⟨checked, ?_, ?_⟩) ?_
      · rw [hmsg]
        exact hhanded
      · simp [hmsg]
      · simp [hmsg, StellarMessage.isError]
    · refine .auth unused checked hmsg haccepted hbefore (fun hgot => ?_) hstate ⟨hid, hkey, hconn⟩ ?_
      · exact hnext (by simp [hchecked, hgot, hmsg, StellarMessage.isError])
      · rw [hmsg]
        exact hhanded
  | payload type contents =>
    by_cases hauth : (s.setRecvMacSeq n).peer.isAuthenticated = false
    · simp only [if_pos hauth]
      obtain ⟨hkept, hhanded, -⟩ := Peer.drop_kept (s.setRecvMacSeq n).peer
      exact .closing (Peer.drop_mState _) hkept.connecting (Or.inl hhanded)
        (by simp [hmsg, StellarMessage.isError])
    · simp only [if_neg hauth]
      have hbefore : s.peer.mState = .GOT_AUTH :=
        of_decide_eq_true (Bool.not_eq_false _ ▸ hauth)
      have htrue : checked = true := by
        simp [hchecked, hbefore, hmsg, PeerState.gotHello, StellarMessage.isError]
      obtain ⟨⟨hid, hkey, hconn⟩, hstate, hhanded⟩ := Peer.sendReplies_kept
        { (s.setRecvMacSeq n).peer with
          handed := s.peer.handed ++ [(.payload type contents, checked)] } env.replies
      refine .payload type contents hmsg hbefore (hnext htrue) (hstate.trans hbefore)
        ⟨hid, hkey, hconn⟩ ?_
      rw [hmsg, ← htrue]
      exact hhanded

theorem recvMessage_cases {msg : AuthenticatedMessage} (habort : s.peer.shouldAbort env = false) :
    Received app env msg s (s.recvMessage app env msg) := by
  simp only [recvMessage]
  rw [if_neg (by simp [habort])]
  have hclosing : (s.peer.mState.gotHello && !msg.message.isError) = true → ∀ text,
      Received app env msg s
        { s with peer := (s.setRecvMacSeq (s.peer.mRecvMacSeq + 1)).peer.dropWith app .ERR_AUTH text } := by
    intro hchecked text
    obtain ⟨hkept, hhanded⟩ := Peer.dropWith_kept
      { s.peer with mRecvMacSeq := s.peer.mRecvMacSeq + 1 } .ERR_AUTH text
    refine .closing (Peer.dropWith_mState _ _ _) hkept.connecting (Or.inl hhanded) fun herror => ?_
    simp [herror] at hchecked
  split_ifs with hchecked hseq hmac
  · exact hclosing hchecked _
  · exact hclosing hchecked _
  · exact recvStellarMessage_cases habort hchecked.symm fun _ => ⟨not_not.mp hseq, not_not.mp hmac⟩
  · refine recvStellarMessage_cases (n := s.peer.mRecvMacSeq) habort ?_ (by simp)
    simpa using hchecked

/-! ## One step -/

/-- Everything a step can do. -/
inductive Stepped (app : Application) (s : Session) (e : Event) (s' : Session) : Prop where
  | same (state : s'.peer.mState = s.peer.mState) (kept : s.peer.Kept s'.peer)
      (handed : s'.peer.handed = s.peer.handed)
  | closing (state : s'.peer.mState = .CLOSING) (handed : s'.peer.handed = s.peer.handed)
      (connecting : s'.peer.connecting = true → s.peer.connecting = true)
  | connected (env : Env) (event : e = .connectHandler false env) (before : s.peer.connecting = true)
      (state : s'.peer.mState = .CONNECTED) (connecting : s'.peer.connecting = false)
      (handed : s'.peer.handed = s.peer.handed)
  | received (msg : AuthenticatedMessage) (env : Env) (event : e = .recvMessage msg env)
      (reading : s.peer.reading = true) (abort : s.peer.shouldAbort env = false)
      (result : Received app env msg s s')

/-- Reading on changes nothing that matters here. -/
theorem Received.startRead {msg : AuthenticatedMessage} {s' : Session}
    (h : Received app env msg s s') :
    Received app env msg s { s' with peer := s'.peer.startRead env } := by
  cases h with
  | closing state connecting handed error => exact .closing state connecting handed error
  | hello elo message before cert network version state connecting peerID key handed other =>
    exact .hello elo message before cert network version state connecting peerID key handed other
  | auth unused checked message accepted before next state kept handed =>
    exact .auth unused checked message accepted before next state
      ⟨kept.peerID, kept.recvKey, kept.connecting⟩ handed
  | payload type contents message before next state kept handed =>
    exact .payload type contents message before next state
      ⟨kept.peerID, kept.recvKey, kept.connecting⟩ handed

theorem Received.connecting_eq {msg : AuthenticatedMessage} {s' : Session}
    (h : Received app env msg s s') : s'.peer.connecting = s.peer.connecting := by
  cases h with
  | closing state connecting => exact connecting
  | hello elo message before cert network version state connecting => exact connecting
  | auth unused checked message accepted before next state kept => exact kept.connecting
  | payload type contents message before next state kept => exact kept.connecting

theorem step_cases (e : Event) : Stepped app s e (s.step app e) := by
  have hsame : Stepped app s e s := .same rfl ⟨rfl, rfl, rfl⟩ rfl
  have hdrop := s.peer.drop_kept
  cases e with
  | connectHandler error env =>
    simp only [step]
    split_ifs with hconn
    · cases error with
      | true =>
        obtain ⟨hkept, hhanded, -⟩ := Peer.drop_kept { s.peer with connecting := false }
        refine .closing (Peer.drop_mState _) hhanded fun hc => ?_
        have hfalse := hkept.connecting
        simp only [connectHandler, if_true] at hc
        rw [hfalse] at hc
        cases hc
      | false => exact .connected env rfl hconn rfl rfl rfl
    · exact hsame
  | recvMessage msg env =>
    simp only [step]
    split_ifs with hread
    · cases habort : s.peer.shouldAbort env with
      | true =>
        have heq : s.recvMessage app env msg = s := by
          unfold recvMessage
          rw [if_pos habort]
        rw [heq]
        exact .same rfl ⟨rfl, rfl, rfl⟩ rfl
      | false => exact .received msg env rfl hread habort (recvMessage_cases habort).startRead
    · exact hsame
  | recvCorrupt env =>
    simp only [step]
    split_ifs with hread
    · obtain ⟨hkept, hhanded⟩ := s.peer.dropWith_kept .ERR_DATA "received corrupt XDR"
      exact .closing (Peer.dropWith_mState _ _ _) hhanded fun hc => hkept.connecting ▸ hc
    · exact hsame
  | drop => exact .closing (Peer.drop_mState _) hdrop.2.1 fun hc => hdrop.1.connecting ▸ hc
  | shutdown =>
    obtain ⟨hkept, hhanded⟩ := s.peer.dropWith_kept .ERR_MISC "peer shutdown"
    exact .closing (Peer.dropWith_mState _ _ _) hhanded fun hc => hkept.connecting ▸ hc
  | evict => exact .same rfl ⟨rfl, rfl, rfl⟩ rfl
  | send type contents =>
    simp only [step]
    split_ifs
    · exact .same rfl ⟨rfl, rfl, rfl⟩ rfl
    · exact hsame
  | getSharedKey remotePublic role => exact .same rfl ⟨rfl, rfl, rfl⟩ rfl

/-- A peer that is still connecting has received nothing. -/
def Waiting (s : Session) : Prop :=
  s.peer.connecting = true →
    s.peer.reading = false ∧ (s.peer.mState = .CONNECTING ∨ s.peer.mState = .CLOSING)

theorem Waiting.create (role : PeerRole) (nonce : Nonce) (peerAuth : PeerAuth) :
    Waiting ⟨Peer.create role nonce, peerAuth⟩ := by
  intro h
  cases role with
  | REMOTE_CALLED_US => cases h
  | WE_CALLED_REMOTE => exact ⟨rfl, Or.inl rfl⟩

theorem Waiting.step (h : Waiting s) (e : Event) : Waiting (s.step app e) := by
  have hreading : s.peer.reading = true → s.peer.connecting = false := by
    intro hr
    by_contra hc
    rw [(h (by simpa using hc)).1] at hr
    cases hr
  have hdrop := s.peer.drop_kept
  have hdropWith := fun err text => @Peer.dropWith_kept app s.peer err text
  intro hc
  cases e with
  | connectHandler error env =>
    simp only [Session.step] at hc ⊢
    split_ifs at hc ⊢ with hconn
    · exfalso
      cases error with
      | true =>
        have hfalse := (Peer.drop_kept { s.peer with connecting := false }).1.connecting
        simp only [connectHandler, if_true] at hc
        rw [hfalse] at hc
        cases hc
      | false => cases hc
    · exact h hc
  | recvMessage msg env =>
    by_cases hr : s.peer.reading = true
    · exfalso
      have hconn := hreading hr
      cases step_cases (s := s) (.recvMessage msg env) with
      | same state kept handed =>
        rw [kept.connecting, hconn] at hc
        cases hc
      | closing state handed connecting =>
        rw [hconn] at connecting
        cases connecting hc
      | connected env event before => cases event
      | received msg env event reading abort result =>
        rw [result.connecting_eq, hconn] at hc
        cases hc
    · simp only [Session.step, if_neg hr] at hc ⊢
      exact h hc
  | recvCorrupt env =>
    simp only [Session.step] at hc ⊢
    split_ifs at hc ⊢ with hr
    · exfalso
      have hkept := (hdropWith .ERR_DATA "received corrupt XDR").1.connecting
      rw [hreading hr] at hkept
      exact absurd (hkept ▸ hc) (by simp)
    · exact h hc
  | drop =>
    have hconn : s.peer.connecting = true := hdrop.1.connecting ▸ hc
    exact ⟨hdrop.2.2.trans (h hconn).1, Or.inr (Peer.drop_mState _)⟩
  | shutdown =>
    have hconn : s.peer.connecting = true := (hdropWith _ _).1.connecting ▸ hc
    have hread := (Peer.drop_kept (s.peer.sendMessage app (.ERROR_MSG .ERR_MISC "peer shutdown"))).2.2
    exact ⟨hread.trans (h hconn).1, Or.inr (Peer.drop_mState _)⟩
  | evict => exact h hc
  | send type contents =>
    simp only [Session.step] at hc ⊢
    split_ifs at hc ⊢
    · exact h hc
    · exact h hc
  | getSharedKey remotePublic role => exact h hc

/-- Once a HELLO was processed, the state stays at or after GOT_HELLO. -/
theorem gotHello_step (e : Event) (hconn : s.peer.connecting = false)
    (hgot : s.peer.mState.gotHello = true) :
    (s.step app e).peer.connecting = false ∧ (s.step app e).peer.mState.gotHello = true := by
  cases step_cases (s := s) e with
  | same state kept handed => exact ⟨kept.connecting.trans hconn, by rw [state]; exact hgot⟩
  | closing state handed connecting =>
    refine ⟨?_, by rw [state]; rfl⟩
    by_contra hc
    rw [connecting (by simpa using hc)] at hconn
    cases hconn
  | connected env event before =>
    rw [before] at hconn
    cases hconn
  | received msg env event reading abort result =>
    refine ⟨result.connecting_eq.trans hconn, ?_⟩
    cases result with
    | closing state => rw [state]; rfl
    | hello elo message before =>
      rw [before] at hgot
      cases hgot
    | auth unused checked message accepted before next state => rw [state]; rfl
    | payload type contents message before next state => rw [state]; rfl

/-- A dropped peer stays dropped, unless a connection is established late. -/
theorem closing_step {e : Event} (horderly : s.Orderly e) (hclosing : s.peer.mState = .CLOSING) :
    (s.step app e).peer.mState = .CLOSING := by
  cases step_cases (s := s) e with
  | same state kept handed => rw [state, hclosing]
  | closing state handed connecting => exact state
  | connected env event before =>
    subst event
    cases horderly before hclosing
  | received msg env event reading abort result => simp [Peer.shouldAbort, hclosing] at abort

/-- An AUTH that comes first is accepted. -/
theorem step_early_auth {msg : AuthenticatedMessage} {unused : ℤ} (hread : s.peer.reading = true)
    (habort : s.peer.shouldAbort env = false) (hmsg : msg.message = .AUTH unused)
    (haccepted : env.isPeerAccepted = true) (hgot : s.peer.mState.gotHello = false) :
    (s.step app (.recvMessage msg env)).peer.mState = .GOT_AUTH := by
  have hauth : s.peer.isAuthenticated = false := by
    cases hstate : s.peer.mState <;> simp_all [Peer.isAuthenticated, PeerState.gotHello]
  have hauth' : Peer.isAuthenticated { s.peer with
      handed := s.peer.handed ++ [(.AUTH unused, false)] } = false := hauth
  simp only [step, if_pos hread, recvMessage, habort, hgot, Bool.false_and, recvStellarMessage, hmsg,
    recvAuth, hauth', haccepted]
  refine (Peer.sendReplies_kept _ _).2.1.trans ?_
  split_ifs <;> rfl

end Session

/-! ## Runs, again -/

section Authentic

variable {app : Application} {s₀ : Session}

theorem waiting_run (h : s₀.Waiting) (es : List Event) : (s₀.run app es).Waiting := by
  induction es using List.reverseRecOn with
  | nil => exact h
  | append_singleton es e ih =>
    rw [Session.run_snoc]
    exact ih.step e

theorem gotHello_run (es : List Event) (hconn : s₀.peer.connecting = false)
    (hgot : s₀.peer.mState.gotHello = true) : (s₀.run app es).peer.mState.gotHello = true := by
  have h : (s₀.run app es).peer.connecting = false ∧
      (s₀.run app es).peer.mState.gotHello = true := by
    induction es using List.reverseRecOn with
    | nil => exact ⟨hconn, hgot⟩
    | append_singleton es e ih =>
      rw [Session.run_snoc]
      exact Session.gotHello_step e ih.1 ih.2
  exact h.2

/-- The steps of a run that come first. -/
def OrderlyRun (app : Application) (s₀ : Session) (es : List Event) : Prop :=
  ∀ pre e post, es = pre ++ e :: post → (s₀.run app pre).Orderly e

theorem OrderlyRun.append_left {es es' : List Event} (h : OrderlyRun app s₀ (es ++ es')) :
    OrderlyRun app s₀ es := by
  intro pre e post heq
  exact h pre e (post ++ es') (by rw [heq]; simp)

theorem OrderlyRun.snoc {es : List Event} {e : Event} (h : OrderlyRun app s₀ (es ++ [e])) :
    OrderlyRun app s₀ es ∧ (s₀.run app es).Orderly e :=
  ⟨h.append_left, h es e [] rfl⟩

/-- The HELLO that has given the keys. -/
def HelloFirst (app : Application) (s₀ : Session) (es : List Event) : Prop :=
  ∃ es₁ hello env elo es₂, es = es₁ ++ .recvMessage hello env :: es₂ ∧
    HelloAccepted app s₀ es₁ hello env elo ∧
    (s₀.run app es).peer.mPeerID = elo.peerID ∧
    (s₀.run app es).peer.mRecvMacKey = ((s₀.run app es₁).helloKeys app elo).2.1

theorem HelloFirst.snoc {es : List Event} {e : Event} (h : HelloFirst app s₀ es)
    (hkept : (s₀.run app es).peer.Kept (s₀.run app (es ++ [e])).peer) :
    HelloFirst app s₀ (es ++ [e]) := by
  obtain ⟨es₁, hello, env, elo, es₂, rfl, haccepted, hid, hkey⟩ := h
  refine ⟨es₁, hello, env, elo, es₂ ++ [e], by simp, haccepted, ?_, ?_⟩
  · rw [hkept.peerID, hid]
  · rw [hkept.recvKey, hkey]

theorem Authenticated.snoc {es : List Event} {e : Event} (h : Authenticated app s₀ es)
    (hkept : (s₀.run app es).peer.Kept (s₀.run app (es ++ [e])).peer) :
    Authenticated app s₀ (es ++ [e]) := by
  obtain ⟨es₁, hello, env₁, elo, es₂, auth, env₂, es₃, rfl, haccepted, hid, hchecked⟩ := h
  refine ⟨es₁, hello, env₁, elo, es₂, auth, env₂, es₃ ++ [e], by simp, haccepted, ?_, hchecked⟩
  rw [hkept.peerID, hid]

/-- In an orderly run the state tells what was received. -/
theorem orderly_authenticated {es : List Event} (h : OrderlyRun app s₀ es)
    (hstart : s₀.peer.mState = .CONNECTING ∨ s₀.peer.mState = .CONNECTED) :
    ((s₀.run app es).peer.mState = .GOT_HELLO → HelloFirst app s₀ es) ∧
      ((s₀.run app es).peer.mState = .GOT_AUTH → Authenticated app s₀ es) := by
  induction es using List.reverseRecOn with
  | nil =>
    have hrun : s₀.run app [] = s₀ := rfl
    rw [hrun]
    rcases hstart with hstart | hstart <;> rw [hstart] <;> simp
  | append_singleton es e ih =>
    obtain ⟨hes, horderly⟩ := h.snoc
    obtain ⟨ihHello, ihAuth⟩ := ih hes
    have hstep := @Session.step_cases app (s₀.run app es) e
    rw [← Session.run_snoc] at hstep
    cases hstep with
    | same state kept handed =>
      rw [state]
      exact ⟨fun hs => (ihHello hs).snoc kept, fun hs => (ihAuth hs).snoc kept⟩
    | closing state => simp [state]
    | connected env event before state => simp [state]
    | received msg env event reading abort result =>
      subst event
      cases result with
      | closing state => simp [state]
      | hello elo message before cert network version state connecting peerID key =>
        refine ⟨fun _ => ?_, by simp [state]⟩
        exact ⟨es, msg, env, elo, [], rfl, ⟨message, cert, network, version, state⟩, peerID, key⟩
      | auth unused checked message accepted before next state kept =>
        refine ⟨by simp [state], fun _ => ?_⟩
        have hgot := (horderly reading abort).2 ⟨unused, message⟩ accepted
        have hhello : (s₀.run app es).peer.mState = .GOT_HELLO := by
          cases hs : (s₀.run app es).peer.mState <;>
            simp_all [PeerState.gotHello, Peer.shouldAbort]
        obtain ⟨es₁, hello, env₁, elo, es₂, rfl, haccepted, hid, hkey⟩ := ihHello hhello
        obtain ⟨hseq, hmac⟩ := next hgot
        refine ⟨es₁, hello, env₁, elo, es₂, msg, env, [], by simp, haccepted, ?_, ?_⟩
        · rw [kept.peerID, hid]
        · rw [hkey] at hmac
          exact ⟨⟨unused, message⟩, hhello, hseq, hmac, state⟩
      | payload type contents message before next state kept =>
        exact ⟨by simp [state], fun _ => (ihAuth before).snoc kept⟩

theorem orderly_closing {pre mid : List Event} (h : OrderlyRun app s₀ (pre ++ mid))
    (hclosing : (s₀.run app pre).peer.mState = .CLOSING) :
    (s₀.run app (pre ++ mid)).peer.mState = .CLOSING := by
  induction mid using List.reverseRecOn with
  | nil => simpa using hclosing
  | append_singleton mid e ih =>
    rw [← List.append_assoc] at h ⊢
    obtain ⟨hmid, horderly⟩ := h.snoc
    rw [Session.run_snoc]
    exact Session.closing_step horderly (ih hmid)

theorem orderly_checked {es : List Event} {e : Event} (horderly : (s₀.run app es).Orderly e)
    {msg : StellarMessage} {checked : Bool}
    (hhanded : (s₀.run app (es ++ [e])).peer.handed = (s₀.run app es).peer.handed ++ [(msg, checked)])
    (hhello : ∀ elo, msg ≠ .HELLO elo) (hauth : ∀ unused, msg ≠ .AUTH unused) :
    Checked app s₀ es e msg checked := by
  have hstep := @Session.step_cases app (s₀.run app es) e
  rw [← Session.run_snoc] at hstep
  have hnew : ∀ m c, (s₀.run app (es ++ [e])).peer.handed =
      (s₀.run app es).peer.handed ++ [(m, c)] → m = msg ∧ c = checked := by
    intro m c hmc
    rw [hmc] at hhanded
    simpa using List.append_cancel_left hhanded
  have hsame : (s₀.run app (es ++ [e])).peer.handed ≠ (s₀.run app es).peer.handed := by
    rw [hhanded]
    simp
  cases hstep with
  | same state kept handed => exact absurd handed hsame
  | closing state handed => exact absurd handed hsame
  | connected env event before state connecting handed => exact absurd handed hsame
  | received am env event reading abort result =>
    subst event
    have herror := (horderly reading abort).1
    cases result with
    | closing state connecting handed error =>
      rcases handed with handed | ⟨c, handed, hpayload⟩
      · exact absurd handed hsame
      -- what is neither HELLO, AUTH nor a payload is an error
      exfalso
      obtain ⟨rfl, -⟩ := hnew _ _ handed
      cases hmsg : am.message with
      | ERROR_MSG code text => simp [hmsg, StellarMessage.isError] at herror
      | HELLO elo => exact hhello elo hmsg
      | AUTH unused => exact hauth unused hmsg
      | payload type contents => exact hpayload type contents hmsg
    | hello elo message before cert network version state connecting peerID key handed =>
      obtain ⟨rfl, -⟩ := hnew _ _ handed
      exact absurd message (hhello elo)
    | auth unused c message accepted before next state kept handed =>
      obtain ⟨rfl, -⟩ := hnew _ _ handed
      exact absurd message (hauth unused)
    | payload type contents message before next state kept handed =>
      obtain ⟨rfl, rfl⟩ := hnew _ _ handed
      exact ⟨rfl, before, am, env, rfl, rfl, next⟩

/-- An AUTH before the HELLO does not authenticate anybody. -/
theorem not_authenticated_early {es : List Event} {e : Event} (hwaiting : s₀.Waiting)
    (hgot : (s₀.run app es).peer.mState.gotHello = false) : ¬ Authenticated app s₀ (es ++ [e]) := by
  rintro ⟨es₁, hello, env₁, elo, es₂, auth, env₂, es₃, heq, haccepted, -, hchecked⟩
  have hearlier : ∀ rest, es = (es₁ ++ [.recvMessage hello env₁]) ++ rest → False := by
    intro rest hes
    have hstate := haccepted.gotHello
    have hconn : (s₀.run app (es₁ ++ [.recvMessage hello env₁])).peer.connecting = false := by
      by_contra hc
      rcases (waiting_run hwaiting _ (by simpa using hc)).2 with hs | hs <;>
        · rw [hstate] at hs
          cases hs
    have hlater := @gotHello_run app _ rest hconn (by rw [hstate]; rfl)
    rw [← Session.run_append, ← hes, hgot] at hlater
    cases hlater
  rcases List.eq_nil_or_concat' es₃ with rfl | ⟨es₄, e', rfl⟩
  · have hsplit : es ++ [e] = (es₁ ++ [.recvMessage hello env₁] ++ es₂) ++ [.recvMessage auth env₂] := by
      simpa using heq
    exact hearlier es₂ (List.append_inj' hsplit rfl).1
  · have hsplit : es ++ [e] =
        (es₁ ++ [.recvMessage hello env₁] ++ (es₂ ++ .recvMessage auth env₂ :: es₄)) ++ [e'] := by
      simpa using heq
    exact hearlier _ (List.append_inj' hsplit rfl).1

end Authentic

/-- **What a run keeps, exactly.** For any node, any keys in its cache and any events, the run is
authentic if and only if it has no AUTH accepted before the HELLO, no ERROR_MSG, and no connection
established after a drop. -/
theorem authentic_iff (app : Application) (role : PeerRole) (nonce : Nonce) (peerAuth : PeerAuth)
    (es : List Event) :
    Authentic app ⟨Peer.create role nonce, peerAuth⟩ es ↔
      OrderlyRun app ⟨Peer.create role nonce, peerAuth⟩ es := by
  have hwaiting := Session.Waiting.create role nonce peerAuth
  have hstart : (Peer.create role nonce).mState = .CONNECTING ∨
      (Peer.create role nonce).mState = .CONNECTED := by
    cases role with
    | REMOTE_CALLED_US => exact Or.inr rfl
    | WE_CALLED_REMOTE => exact Or.inl rfl
  obtain ⟨s₀, hs₀⟩ : ∃ s₀ : Session, s₀ = ⟨Peer.create role nonce, peerAuth⟩ := ⟨_, rfl⟩
  rw [← hs₀] at hwaiting ⊢
  constructor
  · intro h pre e post heq
    cases e with
    | connectHandler error env =>
      intro hconn hclosing
      by_contra herror
      have hlater := h.closing pre [.connectHandler error env] post (by rw [heq]; simp) hclosing
      rw [Session.run_snoc] at hlater
      have hfalse : error = false := by simpa using herror
      simp only [Session.step, if_pos hconn, hfalse] at hlater
      cases hlater
    | recvMessage msg env =>
      intro hread habort
      have hresult := @Session.recvMessage_cases app env (s₀.run app pre) msg habort
      refine ⟨?_, fun ⟨unused, hmsg⟩ haccepted => ?_⟩
      · by_contra herror
        have herror' : msg.message.isError = true := by simpa using herror
        have hhanded : (s₀.run app (pre ++ [.recvMessage msg env])).peer.handed =
            (s₀.run app pre).peer.handed ++ [(msg.message, false)] := by
          rw [Session.run_snoc]
          simp only [Session.step, if_pos hread]
          cases hresult with
          | closing state connecting handed error => exact error herror'
          | hello elo message => simp [message, StellarMessage.isError] at herror'
          | auth unused checked message => simp [message, StellarMessage.isError] at herror'
          | payload type contents message => simp [message, StellarMessage.isError] at herror'
        have hchecked := h.handed pre _ post heq _ _ hhanded
          (fun elo hm => by simp [hm, StellarMessage.isError] at herror')
          (fun unused hm => by simp [hm, StellarMessage.isError] at herror')
        cases hchecked.checked
      · by_contra hgot
        have hgot' : (s₀.run app pre).peer.mState.gotHello = false := by simpa using hgot
        have hauth := @Session.step_early_auth app env _ msg unused hread habort hmsg haccepted hgot'
        rw [← Session.run_snoc] at hauth
        exact not_authenticated_early hwaiting hgot'
          (h.auth (pre ++ [.recvMessage msg env]) post (by rw [heq]; simp) hauth)
    | recvCorrupt env => trivial
    | drop => trivial
    | shutdown => trivial
    | evict => trivial
    | send type contents => trivial
    | getSharedKey remotePublic role => trivial
  · intro h
    refine ⟨fun pre post heq hauth => ?_, fun pre e post heq msg checked hhanded hhello hauth => ?_,
      fun pre mid post heq hclosing => ?_⟩
    · rw [heq] at h
      exact (orderly_authenticated h.append_left (by rw [hs₀]; exact hstart)).2 hauth
    · exact orderly_checked (h pre e post heq) hhanded hhello hauth
    · rw [heq] at h
      exact orderly_closing h.append_left hclosing

/-! ## Two short runs -/

/-- Functions that are injective where that matters, and commute. -/
def toyCrypto : Crypto where
  getPublicKey seed := seed
  sign seed hash := Nat.pair seed hash
  verifySig node sig hash := decide (sig = Nat.pair node hash)
  certHash network expiration pubkey := Nat.pair network (Nat.pair expiration pubkey)
  EcdhDerivePublic secret := 2 ^ secret
  crypto_scalarmult secret pubkey := pubkey ^ secret
  hkdfExtract q a b := Nat.pair q (Nat.pair a b)
  hkdfExpand k tag n m := Nat.pair k (Nat.pair tag (Nat.pair n m))
  hmacSha256 k seq _ := Nat.pair k seq.toNat

def toyApp (seed : ℕ) : Application where
  crypto := toyCrypto
  networkID := 1
  LEDGER_PROTOCOL_VERSION := 1
  OVERLAY_PROTOCOL_MIN_VERSION := 1
  OVERLAY_PROTOCOL_VERSION := 1
  VERSION_STR := "v"
  PEER_PORT := 11625
  NODE_SEED := seed

/-- Somebody connects and sends an AUTH, with no HELLO and any MAC: the peer is authenticated. And a
connection is established after the timeout has dropped the peer: the peer is connected. -/
theorem unauthentic_runs :
    ((Session.run (toyApp 1) ⟨Peer.create .REMOTE_CALLED_US 0, PeerAuth.create (toyApp 1) 0 3⟩
        [.recvMessage ⟨5, .AUTH 0, 7⟩ {}]).peer.mState = .GOT_AUTH ∧
      ¬ Authentic (toyApp 1) ⟨Peer.create .REMOTE_CALLED_US 0, PeerAuth.create (toyApp 1) 0 3⟩
        [.recvMessage ⟨5, .AUTH 0, 7⟩ {}]) ∧
    ((Session.run (toyApp 1) ⟨Peer.create .WE_CALLED_REMOTE 0, PeerAuth.create (toyApp 1) 0 3⟩
        [.drop, .connectHandler false {}]).peer.mState = .CONNECTED ∧
      ¬ Authentic (toyApp 1) ⟨Peer.create .WE_CALLED_REMOTE 0, PeerAuth.create (toyApp 1) 0 3⟩
        [.drop, .connectHandler false {}]) := by
  have hauth : (Session.run (toyApp 1)
      ⟨Peer.create .REMOTE_CALLED_US 0, PeerAuth.create (toyApp 1) 0 3⟩
      [.recvMessage ⟨5, .AUTH 0, 7⟩ {}]).peer.mState = .GOT_AUTH := by
    decide +kernel
  have hconnected : (Session.run (toyApp 1)
      ⟨Peer.create .WE_CALLED_REMOTE 0, PeerAuth.create (toyApp 1) 0 3⟩
      [.drop, .connectHandler false {}]).peer.mState = .CONNECTED := by
    decide +kernel
  refine ⟨⟨hauth, fun h => ?_⟩, hconnected, fun h => ?_⟩
  · -- a single event is not a HELLO and an AUTH
    obtain ⟨es₁, hello, env₁, elo, es₂, auth, env₂, es₃, heq, -⟩ := h.auth _ [] (by simp) hauth
    have hlen := congrArg List.length heq
    simp only [List.length_append, List.length_cons, List.length_nil] at hlen
    omega
  · have hclosing := h.closing [.drop] [.connectHandler false {}] [] rfl (by decide +kernel)
    rw [List.singleton_append, hconnected] at hclosing
    cases hclosing

end SmartCore.Overlay
