import SmartCore.Overlay.Peer

/-!
# Connections between two nodes

Two honest nodes open connections to each other, in either direction and at any time. Each direction
of a connection delivers its messages in order. The two ends of a connection should derive the same
keys, and neither should ever find a wrong sequence number or MAC in what the other one sends.

The shared key of two nodes depends on who called whom, but it is cached for the remote node alone.
When two connections cross each other, each node caches the key of the connection it was called on
and uses it for the one it called on: `crossing_connections`.

Main result: `connections_agree`. If a node never finds a key for the other direction in its cache
when it processes a HELLO, then the keys agree and nothing is rejected. The invariant
`Connection.Ok` says what each end has sent and how much of it the other one has received.
-/

namespace SmartCore.Overlay

/-! ## The system -/

/-- The two nodes. -/
inductive Side where
  | A
  | B
deriving DecidableEq, Repr

def Side.other : Side → Side
  | A => B
  | B => A

@[simp] theorem Side.other_other (n : Side) : n.other.other = n := by cases n <;> rfl

theorem Side.other_ne (n : Side) : n.other ≠ n := by cases n <;> simp [other]

/-- The role a node has in a connection. -/
def roleOf (caller n : Side) : PeerRole :=
  if n = caller then .WE_CALLED_REMOTE else .REMOTE_CALLED_US

/-- A connection: its two ends, and how many messages of the other end each end has received. -/
structure Connection where
  caller : Side
  peer : Side → Peer
  delivered : Side → ℕ := fun _ => 0

structure Network where
  auth : Side → PeerAuth
  connections : List Connection := []

/-- What can happen: a connection is opened, something happens at one end of it, the next message
arrives at an end, or a node needs a key for some other connection. -/
inductive Action where
  | connect (caller : Side) (nonce : Side → Nonce)
  | event (i : ℕ) (n : Side) (e : Event)
  | deliver (i : ℕ) (n : Side) (env : Env)
  | getSharedKey (n : Side) (remotePublic : Curve25519Public) (role : PeerRole)

/-- The events that are no arrivals. -/
def Event.isLocal : Event → Bool
  | recvMessage .. | recvCorrupt _ | getSharedKey .. => false
  | _ => true

def StellarMessage.hello? : StellarMessage → Option Hello
  | HELLO elo => some elo
  | _ => none

namespace Connection

def create (caller : Side) (nonce : Side → Nonce) : Connection where
  caller := caller
  peer n := Peer.create (roleOf caller n) (nonce n)

/-- The message that is the next to arrive at an end. -/
def next (c : Connection) (n : Side) : Option AuthenticatedMessage :=
  (c.peer n.other).sent[c.delivered n]?

def setPeer (c : Connection) (n : Side) (p : Peer) : Connection :=
  { c with peer := Function.update c.peer n p }

/-- One more message has arrived at an end. -/
def arrived (c : Connection) (n : Side) : Connection :=
  { c with delivered := Function.update c.delivered n (c.delivered n + 1) }

end Connection

namespace Network

variable (app : Side → Application) (net : Network)

/-- A node, as one of its peers sees it. -/
def session (c : Connection) (n : Side) : Session := ⟨c.peer n, net.auth n⟩

/-- The nodes that the other peers of a node are connected to. -/
def otherPeerIDs (i : ℕ) (n : Side) : List NodeID :=
  net.connections.zipIdx.filterMap fun c =>
    if c.2 ≠ i ∧ (c.1.peer n).listed then some (c.1.peer n).mPeerID else none

/-- An event at one end of connection `i`. -/
def stepAt (i : ℕ) (n : Side) (c : Connection) (e : Event) : Network :=
  let s := (net.session c n).step (app n) e
  { auth := Function.update net.auth n s.peerAuth
    connections := net.connections.set i (c.setPeer n s.peer) }

def act : Action → Network
  | .connect caller nonce =>
    { net with connections := net.connections ++ [Connection.create caller nonce] }
  | .event i n e =>
    match net.connections[i]? with
    | some c => if e.isLocal then net.stepAt app i n c e else net
    | none => net
  | .deliver i n env =>
    match net.connections[i]? with
    | some c =>
      match c.next n with
      | some msg =>
        if (c.peer n).reading then
          net.stepAt app i n (c.arrived n)
            (.recvMessage msg { env with peerIDs := env.peerIDs ++ net.otherPeerIDs i n })
        else net
      | none => net
    | none => net
  | .getSharedKey n remotePublic role =>
    { net with
      auth := Function.update net.auth n ((net.auth n).getSharedKey (app n) remotePublic role).2 }

def run (acts : List Action) : Network := acts.foldl (act app) net

/-- Two nodes as they start, with any keys in their caches. -/
structure Started : Prop where
  connections : net.connections = []
  derived : ∀ n, (net.auth n).mECDHPublicKey =
    (app n).crypto.EcdhDerivePublic (net.auth n).mECDHSecretKey
  cert : ∀ n, (net.auth n).mCert.pubkey = (net.auth n).mECDHPublicKey
  cache : ∀ n, 0 < (net.auth n).mSharedKeyCache.maxSize

/-- Is the message refused for its sequence number or its MAC? -/
def rejects (i : ℕ) (n : Side) (env : Env) : Prop :=
  ∃ c msg, net.connections[i]? = some c ∧ c.next n = some msg ∧ (c.peer n).reading = true ∧
    (c.peer n).shouldAbort env = false ∧ (c.peer n).mState.gotHello = true ∧
    msg.message.isError = false ∧
    (msg.sequence ≠ (c.peer n).mRecvMacSeq ∨
      msg.mac ≠ (app n).crypto.hmacSha256 (c.peer n).mRecvMacKey msg.sequence msg.message)

/-- The keys of all connections agree where both ends have processed the HELLO of the other. -/
def KeysAgree : Prop :=
  ∀ c ∈ net.connections, (∀ n, (c.peer n).keyed = true) →
    ∀ n, (c.peer n).mSendMacKey = (c.peer n.other).mRecvMacKey

/-- A HELLO that is processed finds no key in the cache that is meant for the other role. -/
def CacheFits : Action → Prop
  | .deliver i n env => ∀ c ∈ net.connections[i]?, (c.peer n).reading = true →
    (c.peer n).shouldAbort env = false → ∀ msg ∈ c.next n, ∀ elo ∈ msg.message.hello?,
    ∀ k ∈ (net.auth n).mSharedKeyCache.get? elo.cert.pubkey,
      k = (net.auth n).deriveSharedKey (app n) elo.cert.pubkey (c.peer n).mRole
  | _ => True

instance (a : Action) : Decidable (net.CacheFits app a) :=
  match a with
  | .deliver .. => by
    unfold CacheFits
    infer_instance
  | .connect .. => isTrue trivial
  | .event .. => isTrue trivial
  | .getSharedKey .. => isTrue trivial

end Network

/-! ## What an end has sent -/

def StellarMessage.isHello : StellarMessage → Bool
  | HELLO _ => true
  | _ => false

/-- The sealed messages of a list. -/
def sealedCount (l : List AuthenticatedMessage) : ℕ := l.countP fun m => m.message.isSealed

def helloCount (l : List AuthenticatedMessage) : ℕ := l.countP fun m => m.message.isHello

@[simp] theorem sealedCount_append (l l' : List AuthenticatedMessage) :
    sealedCount (l ++ l') = sealedCount l + sealedCount l' := List.countP_append

@[simp] theorem helloCount_append (l l' : List AuthenticatedMessage) :
    helloCount (l ++ l') = helloCount l + helloCount l' := List.countP_append

/-- What an end has sent: its HELLO carries its nonce and the node's public key, and the other
messages are sealed with `key` and counted from zero, none before the HELLO. As long as the end has
no keys it seals nothing. -/
structure Log (app : Application) (pub : Curve25519Public) (nonce : Nonce) (key : HmacSha256Key)
    (keyed : Bool) (seq : UInt64) (sent : List AuthenticatedMessage) : Prop where
  content : ∀ m ∈ sent, ∀ elo, m.message = .HELLO elo → elo.nonce = nonce ∧ elo.cert.pubkey = pub
  sealed : ∀ pre m post, sent = pre ++ m :: post → m.message.isSealed = true →
    m.sequence = UInt64.ofNat (sealedCount pre) ∧
      m.mac = app.crypto.hmacSha256 key m.sequence m.message ∧ 0 < helloCount pre
  unkeyed : keyed = false → sealedCount sent = 0
  next : keyed = true → seq = UInt64.ofNat (sealedCount sent)

namespace Log

variable {app : Application} {pub : Curve25519Public} {nonce : Nonce} {key : HmacSha256Key}
  {keyed : Bool} {seq : UInt64} {sent : List AuthenticatedMessage}

/-- A message at the end of a list, or earlier. -/
theorem snoc_cases {l pre post : List AuthenticatedMessage} {m x : AuthenticatedMessage}
    (h : l ++ [x] = pre ++ m :: post) :
    (pre = l ∧ m = x) ∨ ∃ post', l = pre ++ m :: post' := by
  rcases List.eq_nil_or_concat' post with rfl | ⟨post', y, rfl⟩
  · obtain ⟨hl, hx⟩ := List.append_inj' h rfl
    exact Or.inl ⟨hl.symm, by simpa using hx.symm⟩
  · have hsplit : l ++ [x] = (pre ++ m :: post') ++ [y] := by simpa using h
    exact Or.inr ⟨post', (List.append_inj' hsplit rfl).1⟩

/-- A message that is not sealed. -/
theorem plain (h : Log app pub nonce key keyed seq sent) {m : AuthenticatedMessage}
    (hplain : m.message.isSealed = false)
    (hcontent : ∀ elo, m.message = .HELLO elo → elo.nonce = nonce ∧ elo.cert.pubkey = pub) :
    Log app pub nonce key keyed seq (sent ++ [m]) := by
  have hcount : sealedCount (sent ++ [m]) = sealedCount sent := by
    simp [sealedCount, hplain]
  refine ⟨fun m' hm' elo hmsg => ?_, fun pre m' post heq hsealed => ?_, fun hk => ?_, fun hk => ?_⟩
  · rcases List.mem_append.mp hm' with hm' | hm'
    · exact h.content m' hm' elo hmsg
    · rw [List.mem_singleton.mp hm'] at hmsg
      exact hcontent elo hmsg
  · rcases snoc_cases heq with ⟨-, rfl⟩ | ⟨post', heq'⟩
    · rw [hplain] at hsealed
      cases hsealed
    · exact h.sealed pre m' post' heq' hsealed
  · rw [hcount]
    exact h.unkeyed hk
  · rw [hcount]
    exact h.next hk

/-- A sealed message takes the next number. -/
theorem push (h : Log app pub nonce key true seq sent) {msg : StellarMessage}
    (hsealed : msg.isSealed = true) (hhello : 0 < helloCount sent) :
    Log app pub nonce key true (seq + 1) (sent ++ [⟨seq, msg, app.crypto.hmacSha256 key seq msg⟩]) := by
  refine ⟨fun m' hm' elo hmsg => ?_, fun pre m' post heq hm' => ?_, by simp, fun _ => ?_⟩
  · rcases List.mem_append.mp hm' with hm' | hm'
    · exact h.content m' hm' elo hmsg
    · rw [List.mem_singleton.mp hm'] at hmsg
      simp only at hmsg
      rw [hmsg] at hsealed
      cases hsealed
  · rcases snoc_cases heq with ⟨rfl, rfl⟩ | ⟨post', heq'⟩
    · exact ⟨h.next rfl, rfl, hhello⟩
    · exact h.sealed pre m' post' heq' hm'
  · have hcount : sealedCount (sent ++ [⟨seq, msg, app.crypto.hmacSha256 key seq msg⟩]) =
        sealedCount sent + 1 := by
      simp [sealedCount, hsealed]
    rw [hcount, h.next rfl, UInt64.ofNat_add]
    rfl

/-- The end gets its keys. -/
theorem rekey (h : Log app pub nonce key false seq sent) (key' : HmacSha256Key) :
    Log app pub nonce key' true 0 sent := by
  have hnone := h.unkeyed rfl
  refine ⟨h.content, fun pre m post heq hsealed => ?_, by simp, fun _ => by rw [hnone]; rfl⟩
  rw [heq] at hnone
  simp [sealedCount, hsealed] at hnone

end Log

/-- One end: what it has sent, and how that goes with its state. The caller says HELLO before it
reads, the other end when it gets its keys. -/
structure Peer.Ok (app : Application) (pub : Curve25519Public) (p : Peer) : Prop where
  log : Log app pub p.mSendNonce p.mSendMacKey p.keyed p.mSendMacSeq p.sent
  once : helloCount p.sent ≤ 1
  keyed_hello : p.keyed = true → helloCount p.sent = 1
  keyed_state : p.keyed = true → p.mState.gotHello = true
  state_keyed : p.mState = .GOT_HELLO ∨ p.mState = .GOT_AUTH → p.keyed = true
  waiting : p.connecting = true → p.reading = false ∧ p.keyed = false ∧ helloCount p.sent = 0
  caller : p.mRole = .WE_CALLED_REMOTE → p.reading = true → helloCount p.sent = 1
  callee : p.mRole = .REMOTE_CALLED_US →
    p.connecting = false ∧ (p.keyed = false → helloCount p.sent = 0)

namespace Peer.Ok

variable {app : Application} {pub : Curve25519Public} {p : Peer}

theorem create (app : Application) (pub : Curve25519Public) (role : PeerRole) (nonce : Nonce) :
    (Peer.create role nonce).Ok app pub := by
  have hlog : Log app pub nonce 0 false 0 [] := by
    refine ⟨by simp, fun pre m post heq => ?_, fun _ => rfl, by simp⟩
    simp at heq
  refine ⟨hlog, Nat.zero_le _, by simp [Peer.create], by simp [Peer.create], ?_, ?_, ?_, ?_⟩
  · cases role <;> simp [Peer.create]
  · cases role <;> simp [Peer.create, helloCount]
  · cases role <;> simp [Peer.create]
  · cases role <;> simp [Peer.create, helloCount]

/-- Nothing is said about what arrives. -/
theorem setRecvMacSeq (h : p.Ok app pub) (n : UInt64) : Peer.Ok app pub { p with mRecvMacSeq := n } :=
  ⟨h.log, h.once, h.keyed_hello, h.keyed_state, h.state_keyed, h.waiting, h.caller, h.callee⟩

theorem setHanded (h : p.Ok app pub) (l : List (StellarMessage × Bool)) :
    Peer.Ok app pub { p with handed := l } :=
  ⟨h.log, h.once, h.keyed_hello, h.keyed_state, h.state_keyed, h.waiting, h.caller, h.callee⟩

theorem unlist (h : p.Ok app pub) : Peer.Ok app pub { p with listed := false } :=
  ⟨h.log, h.once, h.keyed_hello, h.keyed_state, h.state_keyed, h.waiting, h.caller, h.callee⟩

theorem drop (h : p.Ok app pub) : p.drop.Ok app pub := by
  unfold Peer.drop
  split_ifs
  · exact h
  · exact ⟨h.log, h.once, h.keyed_hello, fun _ => rfl, by simp, h.waiting, h.caller, h.callee⟩

/-- A message that is no HELLO leaves the count. -/
theorem helloCount_sendMessage {msg : StellarMessage} (hmsg : msg.isHello = false) :
    helloCount (p.sendMessage app msg).sent = helloCount p.sent := by
  unfold Peer.sendMessage Peer.sealMessage
  split_ifs <;> simp [helloCount, hmsg]

theorem sendMessage (h : p.Ok app pub) {msg : StellarMessage} (hmsg : msg.isHello = false)
    (hlog : Log app pub p.mSendNonce p.mSendMacKey p.keyed (p.sendMessage app msg).mSendMacSeq
      (p.sendMessage app msg).sent) : (p.sendMessage app msg).Ok app pub := by
  have hcount := @helloCount_sendMessage app p msg hmsg
  refine ⟨hlog, ?_, fun hk => ?_, h.keyed_state, h.state_keyed, fun hc => ?_, fun hr hread => ?_,
    fun hr => ?_⟩
  · rw [hcount]
    exact h.once
  · rw [hcount]
    exact h.keyed_hello hk
  · rw [hcount]
    exact h.waiting hc
  · rw [hcount]
    exact h.caller hr hread
  · rw [hcount]
    exact h.callee hr

theorem sendError (h : p.Ok app pub) (err : ErrorCode) (text : String) :
    (p.sendMessage app (.ERROR_MSG err text)).Ok app pub :=
  h.sendMessage rfl (h.log.plain (m := ⟨0, .ERROR_MSG err text, 0⟩) rfl fun elo helo => by cases helo)

theorem dropWith (h : p.Ok app pub) (err : ErrorCode) (text : String) :
    (p.dropWith app err text).Ok app pub :=
  (h.sendError err text).drop

theorem sendSealed (h : p.Ok app pub) (hkeyed : p.keyed = true) {msg : StellarMessage}
    (hsealed : msg.isSealed = true) : (p.sendMessage app msg).Ok app pub := by
  have hmsg : msg.isHello = false := by
    cases msg <;> first | rfl | cases hsealed
  refine h.sendMessage hmsg ?_
  have hlog := h.log
  rw [hkeyed] at hlog ⊢
  have hpush := hlog.push hsealed (by rw [h.keyed_hello hkeyed]; exact Nat.one_pos)
  simpa only [Peer.sendMessage, Peer.sealMessage, hsealed, if_true] using hpush

theorem sendReplies (h : p.Ok app pub) (hkeyed : p.keyed = true) (replies : List (PayloadType × ℕ)) :
    (p.sendReplies app replies).Ok app pub := by
  induction replies generalizing p with
  | nil => exact h
  | cons r replies ih => exact ih (h.sendSealed hkeyed rfl) hkeyed

theorem startRead (h : p.Ok app pub) (hread : p.reading = true) (env : Env) :
    (p.startRead env).Ok app pub := by
  refine ⟨h.log, h.once, h.keyed_hello, h.keyed_state, h.state_keyed, fun hc => ?_,
    fun hr _ => h.caller hr hread, h.callee⟩
  rw [(h.waiting hc).1] at hread
  cases hread

end Peer.Ok

/-- The keys of a node, and its certificate. -/
structure PeerAuth.Ok (app : Application) (auth : PeerAuth) : Prop where
  derived : auth.mECDHPublicKey = app.crypto.EcdhDerivePublic auth.mECDHSecretKey
  cert : auth.mCert.pubkey = auth.mECDHPublicKey
  cache : 0 < auth.mSharedKeyCache.maxSize

/-- The ECDH keys of a node never change. -/
structure PeerAuth.SameKeys (auth auth' : PeerAuth) : Prop where
  secret : auth'.mECDHSecretKey = auth.mECDHSecretKey
  pub : auth'.mECDHPublicKey = auth.mECDHPublicKey

namespace PeerAuth.Ok

variable {app : Application} {auth : PeerAuth}

theorem getSharedKey (h : auth.Ok app) (remotePublic : Curve25519Public) (role : PeerRole) :
    (auth.getSharedKey app remotePublic role).2.Ok app ∧
      auth.SameKeys (auth.getSharedKey app remotePublic role).2 := by
  obtain ⟨hsecret, hpub, hcert, hsize⟩ := PeerAuth.getSharedKey_keys
    remotePublic role
  refine ⟨⟨?_, ?_, ?_⟩, hsecret, hpub⟩
  · rw [hpub, hsecret]
    exact h.derived
  · rw [hcert, hpub]
    exact h.cert
  · rw [hsize]
    exact h.cache

theorem getAuthCert (h : auth.Ok app) (timeNow : ℕ) :
    (auth.getAuthCert app timeNow).1.pubkey = auth.mECDHPublicKey ∧
      (auth.getAuthCert app timeNow).2.Ok app ∧ auth.SameKeys (auth.getAuthCert app timeNow).2 := by
  have hcert : (auth.getAuthCert app timeNow).1.pubkey = auth.mECDHPublicKey := by
    unfold PeerAuth.getAuthCert
    simp only
    split_ifs
    · rfl
    · exact h.cert
  exact ⟨hcert, ⟨h.derived, hcert, h.cache⟩, rfl, rfl⟩

end PeerAuth.Ok

/-! ### The handlers -/

namespace Session

variable {app : Application} {env : Env} {s : Session}

/-- What a HELLO says. -/
theorem sendHello_log (hauth : s.peerAuth.Ok app) {key : HmacSha256Key} {keyed : Bool} {seq : UInt64}
    (hlog : Log app s.peerAuth.mECDHPublicKey s.peer.mSendNonce key keyed seq s.peer.sent) :
    Log app s.peerAuth.mECDHPublicKey s.peer.mSendNonce key keyed seq
        (s.sendHello app env).peer.sent ∧
      helloCount (s.sendHello app env).peer.sent = helloCount s.peer.sent + 1 := by
  refine ⟨hlog.plain rfl fun elo helo => ?_, by
    simp [sendHello, Peer.sendMessage, Peer.sealMessage, helloCount, StellarMessage.isSealed,
      StellarMessage.isHello]⟩
  obtain rfl := StellarMessage.HELLO.inj helo
  exact ⟨rfl, (hauth.getAuthCert env.timeNow).1⟩

theorem connectHandler_ok (h : s.peer.Ok app s.peerAuth.mECDHPublicKey) (hauth : s.peerAuth.Ok app)
    (hconn : s.peer.connecting = true) (error : Bool) :
    (s.connectHandler app env error).peer.Ok app s.peerAuth.mECDHPublicKey ∧
      (s.connectHandler app env error).peerAuth.Ok app ∧
      s.peerAuth.SameKeys (s.connectHandler app env error).peerAuth := by
  obtain ⟨hread, hkeyed, hcount⟩ := h.waiting hconn
  have hrole : s.peer.mRole ≠ .REMOTE_CALLED_US := by
    intro hr
    rw [(h.callee hr).1] at hconn
    cases hconn
  cases error with
  | true =>
    refine ⟨?_, hauth, rfl, rfl⟩
    have hok : Peer.Ok app s.peerAuth.mECDHPublicKey { s.peer with connecting := false } :=
      ⟨h.log, h.once, h.keyed_hello, h.keyed_state, h.state_keyed, by simp, h.caller,
        fun hr => absurd hr hrole⟩
    exact hok.drop
  | false =>
    obtain ⟨-, hauth', hsame⟩ := hauth.getAuthCert env.timeNow
    refine ⟨?_, hauth', hsame⟩
    obtain ⟨hlog', hcount'⟩ := sendHello_log
      (s := ⟨{ Peer.startRead { s.peer with connecting := false } env with mState := .CONNECTED },
        s.peerAuth⟩) hauth h.log
    have hone : helloCount (s.connectHandler app env false).peer.sent = 1 :=
      hcount'.trans (congrArg (· + 1) hcount)
    refine ⟨hlog', hone.le, fun _ => hone, fun hk => ?_, ?_, fun hc => ?_, fun _ _ => hone,
      fun hr => absurd hr hrole⟩
    · exact absurd (hkeyed.symm.trans hk) (by simp)
    · rintro (hs | hs) <;> cases hs
    · cases hc

theorem recvAuth_ok (h : s.peer.Ok app s.peerAuth.mECDHPublicKey) (hkeyed : s.peer.keyed = true) :
    (s.recvAuth app env).Ok app s.peerAuth.mECDHPublicKey := by
  have hauth : Peer.Ok app s.peerAuth.mECDHPublicKey { s.peer with mState := .GOT_AUTH } :=
    ⟨h.log, h.once, h.keyed_hello, fun _ => rfl, fun _ => hkeyed, h.waiting, h.caller, h.callee⟩
  simp only [recvAuth]
  split_ifs
  · exact h.dropWith _ _
  · exact hauth.dropWith _ _
  · exact (hauth.sendSealed hkeyed rfl).sendReplies hkeyed _
  · exact hauth.sendReplies hkeyed _

/-- The keys that a HELLO gives, when the cache has no key for the other role. -/
theorem helloKeys_eq {elo : Hello} (hauth : s.peerAuth.Ok app)
    (hfits : ∀ k, s.peerAuth.mSharedKeyCache.get? elo.cert.pubkey = some k →
      k = s.peerAuth.deriveSharedKey app elo.cert.pubkey s.peer.mRole) :
    (s.helloKeys app elo).1 = PeerAuth.sendKeyOf app.crypto
        (s.peerAuth.deriveSharedKey app elo.cert.pubkey s.peer.mRole) s.peer.mSendNonce elo.nonce
        s.peer.mRole ∧
      (s.helloKeys app elo).2.1 = PeerAuth.recvKeyOf app.crypto
        (s.peerAuth.deriveSharedKey app elo.cert.pubkey s.peer.mRole) s.peer.mSendNonce elo.nonce
        s.peer.mRole := by
  have hshared : (s.peerAuth.getSharedKey app elo.cert.pubkey s.peer.mRole).1 =
      s.peerAuth.deriveSharedKey app elo.cert.pubkey s.peer.mRole := by
    rw [PeerAuth.getSharedKey_fst]
    cases hget : s.peerAuth.mSharedKeyCache.get? elo.cert.pubkey with
    | none => rfl
    | some k => exact hfits k hget
  simp only [helloKeys, PeerAuth.getSendingMacKey_eq, PeerAuth.getReceivingMacKey_eq,
    PeerAuth.getSharedKey_again hauth.cache, hshared, and_self]

theorem helloKeys_auth (hauth : s.peerAuth.Ok app) (elo : Hello) :
    (s.helloKeys app elo).2.2.Ok app ∧ s.peerAuth.SameKeys (s.helloKeys app elo).2.2 := by
  simp only [helloKeys, PeerAuth.getSendingMacKey_eq, PeerAuth.getReceivingMacKey_eq]
  obtain ⟨hok, hsecret, hpub⟩ := hauth.getSharedKey elo.cert.pubkey s.peer.mRole
  obtain ⟨hok', hsecret', hpub'⟩ := hok.getSharedKey elo.cert.pubkey s.peer.mRole
  exact ⟨hok', hsecret'.trans hsecret, hpub'.trans hpub⟩

/-- The peer and the node when the certificate is verified and the HELLO of the called end has gone
back. -/
def greet (app : Application) (env : Env) (s : Session) (elo : Hello) : Session :=
  let s := s.acceptHello app elo
  if s.peer.mRole = .REMOTE_CALLED_US then s.sendHello app env else s

theorem greet_ok {elo : Hello} (h : s.peer.Ok app s.peerAuth.mECDHPublicKey)
    (hauth : s.peerAuth.Ok app) (hread : s.peer.reading = true)
    (hgot : s.peer.mState.gotHello = false) :
    (greet app env s elo).peer.Ok app s.peerAuth.mECDHPublicKey ∧
      (greet app env s elo).peerAuth.Ok app ∧ s.peerAuth.SameKeys (greet app env s elo).peerAuth := by
  have hkeyed : s.peer.keyed = false := by
    by_contra hk
    rw [h.keyed_state (by simpa using hk)] at hgot
    cases hgot
  have hconn : s.peer.connecting = false := by
    by_contra hc
    rw [(h.waiting (by simpa using hc)).1] at hread
    cases hread
  obtain ⟨hauth', hsame⟩ := helloKeys_auth hauth elo
  have hlog : Log app s.peerAuth.mECDHPublicKey s.peer.mSendNonce (s.helloKeys app elo).1 true 0
      s.peer.sent := by
    have hl := h.log
    rw [hkeyed] at hl
    exact hl.rekey _
  unfold greet
  simp only
  split_ifs with hrole
  · -- the called end says HELLO now
    have hzero := (h.callee hrole).2 hkeyed
    have hpub : (s.acceptHello app elo).peerAuth.mECDHPublicKey = s.peerAuth.mECDHPublicKey := hsame.pub
    have hlog' : Log app (s.acceptHello app elo).peerAuth.mECDHPublicKey s.peer.mSendNonce
        (s.helloKeys app elo).1 true 0 (s.acceptHello app elo).peer.sent := by
      rw [hpub]
      exact hlog
    obtain ⟨hlog'', hcount⟩ := sendHello_log (s := s.acceptHello app elo) hauth' hlog'
    obtain ⟨-, hauth'', hsecret, hpub'⟩ := PeerAuth.Ok.getAuthCert
      hauth' env.timeNow
    rw [hpub] at hlog''
    have hone : helloCount ((s.acceptHello app elo).sendHello app env).peer.sent = 1 :=
      hcount.trans (congrArg (· + 1) hzero)
    refine ⟨⟨hlog'', hone.le, fun _ => hone, fun _ => rfl, fun _ => rfl, fun hc => ?_,
      fun _ _ => hone, fun _ => ⟨hconn, fun hk => ?_⟩⟩, hauth'', hsecret.trans hsame.secret,
      hpub'.trans hsame.pub⟩
    · exact absurd (hconn.symm.trans hc) (by simp)
    · cases hk
  · -- the caller has said it
    have hcaller : s.peer.mRole = .WE_CALLED_REMOTE := by
      cases hr : s.peer.mRole with
      | REMOTE_CALLED_US => exact absurd hr hrole
      | WE_CALLED_REMOTE => rfl
    have hone := h.caller hcaller hread
    refine ⟨⟨hlog, hone.le, fun _ => hone, fun _ => rfl, fun _ => rfl, fun hc => ?_, fun _ _ => hone,
      fun hr => absurd hr hrole⟩, hauth', hsame⟩
    exact absurd (hconn.symm.trans hc) (by simp)

theorem checkHello_ok {pub : Curve25519Public} {elo : Hello} (h : s.peer.Ok app pub)
    (hkeyed : s.peer.keyed = true) : (s.checkHello app env elo).Ok app pub := by
  unfold checkHello
  split_ifs
  · exact h.dropWith _ _
  · exact h.dropWith _ _
  · exact h.dropWith _ _
  · exact h.dropWith _ _
  · exact h.dropWith _ _
  · exact h.sendSealed hkeyed rfl
  · exact h

end Session

/-! ## What an end has received -/

/-- The same end with the same keys, which may have sent more. -/
structure Peer.Later (p p' : Peer) : Prop where
  role : p'.mRole = p.mRole
  nonce : p'.mSendNonce = p.mSendNonce
  reading : p'.reading = p.reading
  connecting : p'.connecting = p.connecting
  sent : p.sent <+: p'.sent
  keyed : p'.keyed = p.keyed
  sendKey : p'.mSendMacKey = p.mSendMacKey
  recvKey : p'.mRecvMacKey = p.mRecvMacKey
  recvSeq : p'.mRecvMacSeq = p.mRecvMacSeq

namespace Peer.Later

variable {app : Application} {p p' p'' : Peer}

theorem refl (p : Peer) : p.Later p := ⟨rfl, rfl, rfl, rfl, List.prefix_rfl, rfl, rfl, rfl, rfl⟩

theorem trans (h : p.Later p') (h' : p'.Later p'') : p.Later p'' :=
  ⟨h'.role.trans h.role, h'.nonce.trans h.nonce, h'.reading.trans h.reading,
    h'.connecting.trans h.connecting, h.sent.trans h'.sent, h'.keyed.trans h.keyed,
    h'.sendKey.trans h.sendKey, h'.recvKey.trans h.recvKey, h'.recvSeq.trans h.recvSeq⟩

theorem drop (p : Peer) : p.Later p.drop := by
  unfold Peer.drop
  split_ifs
  · exact refl p
  · exact ⟨rfl, rfl, rfl, rfl, List.prefix_rfl, rfl, rfl, rfl, rfl⟩

theorem setHanded (p : Peer) (l : List (StellarMessage × Bool)) : p.Later { p with handed := l } :=
  ⟨rfl, rfl, rfl, rfl, List.prefix_rfl, rfl, rfl, rfl, rfl⟩

theorem sendMessage (app : Application) (p : Peer) (msg : StellarMessage) :
    p.Later (p.sendMessage app msg) :=
  ⟨rfl, rfl, rfl, rfl, List.prefix_append _ _, rfl, rfl, rfl, rfl⟩

theorem dropWith (app : Application) (p : Peer) (err : ErrorCode) (text : String) :
    p.Later (p.dropWith app err text) :=
  (sendMessage app p _).trans (drop _)

theorem sendReplies (app : Application) (p : Peer) (replies : List (PayloadType × ℕ)) :
    p.Later (p.sendReplies app replies) := by
  induction replies generalizing p with
  | nil => exact refl p
  | cons r replies ih => exact (sendMessage app p _).trans (ih _)

end Peer.Later

namespace Session

variable {app : Application} {env : Env} {s : Session}

theorem recvAuth_later : s.peer.Later (s.recvAuth app env) := by
  have hauth : s.peer.Later { s.peer with mState := .GOT_AUTH } :=
    ⟨rfl, rfl, rfl, rfl, List.prefix_rfl, rfl, rfl, rfl, rfl⟩
  simp only [recvAuth]
  split_ifs
  · exact .dropWith _ _ _ _
  · exact hauth.trans (.dropWith _ _ _ _)
  · exact hauth.trans ((Peer.Later.sendMessage app _ _).trans (.sendReplies _ _ _))
  · exact hauth.trans (.sendReplies _ _ _)

theorem checkHello_later {elo : Hello} : s.peer.Later (s.checkHello app env elo) := by
  unfold checkHello
  split_ifs
  · exact .dropWith _ _ _ _
  · exact .dropWith _ _ _ _
  · exact .dropWith _ _ _ _
  · exact .dropWith _ _ _ _
  · exact .dropWith _ _ _ _
  · exact .sendMessage _ _ _
  · exact .refl _

/-- A HELLO gives the keys, or drops the peer. -/
theorem recvHello_spec {elo : Hello} (h : s.peer.Ok app s.peerAuth.mECDHPublicKey)
    (hauth : s.peerAuth.Ok app) (hread : s.peer.reading = true) :
    (s.recvHello app env elo).peer.Ok app s.peerAuth.mECDHPublicKey ∧
      (s.recvHello app env elo).peerAuth.Ok app ∧
      s.peerAuth.SameKeys (s.recvHello app env elo).peerAuth ∧
      ((s.peer.Later (s.recvHello app env elo).peer ∧
          (s.recvHello app env elo).peer.mState = .CLOSING) ∨
        (s.peer.mState.gotHello = false ∧
          (greet app env s elo).peer.Later (s.recvHello app env elo).peer)) := by
  have hdropped : s.peer.drop.Ok app s.peerAuth.mECDHPublicKey ∧ s.peerAuth.Ok app ∧
      s.peerAuth.SameKeys s.peerAuth ∧
      ((s.peer.Later s.peer.drop ∧ s.peer.drop.mState = .CLOSING) ∨
        (s.peer.mState.gotHello = false ∧ (greet app env s elo).peer.Later s.peer.drop)) :=
    ⟨h.drop, hauth, ⟨rfl, rfl⟩, Or.inl ⟨.drop _, Peer.drop_mState _⟩⟩
  unfold recvHello
  split_ifs with hgot hcert
  · exact hdropped
  · exact hdropped
  · obtain ⟨hok, hauth', hsame⟩ := greet_ok h hauth hread (by simpa using hgot)
    exact ⟨checkHello_ok (s := greet app env s elo) hok (by simp only [greet]; split_ifs <;> rfl),
      hauth', hsame, Or.inr ⟨by simpa using hgot, checkHello_later (s := greet app env s elo)⟩⟩

end Session

namespace Session

variable {app : Application} {env : Env} {s : Session}

theorem recvHello_reading {elo : Hello} :
    (s.recvHello app env elo).peer.reading = s.peer.reading := by
  unfold recvHello
  split_ifs
  · exact (Peer.Later.drop _).reading
  · exact (Peer.Later.drop _).reading
  · refine (checkHello_later (s := greet app env s elo)).reading.trans ?_
    simp only [greet]
    split_ifs <;> rfl

theorem recvStellarMessage_reading {checked : Bool} {msg : StellarMessage} :
    (s.recvStellarMessage app env checked msg).peer.reading = s.peer.reading := by
  unfold recvStellarMessage
  by_cases habort : s.peer.shouldAbort env = true
  · rw [if_pos habort]
  rw [if_neg habort]
  cases msg with
  | ERROR_MSG code text => exact (Peer.Later.drop _).reading
  | HELLO elo => exact recvHello_reading
  | AUTH unused => exact recvAuth_later.reading
  | payload type contents =>
    simp only
    split_ifs
    · exact (Peer.Later.drop _).reading
    · exact (Peer.Later.sendReplies _ _ _).reading

theorem recvMessage_reading {msg : AuthenticatedMessage} :
    (s.recvMessage app env msg).peer.reading = s.peer.reading := by
  simp only [recvMessage]
  split_ifs
  · rfl
  · exact (Peer.Later.dropWith _ _ _ _).reading
  · exact (Peer.Later.dropWith _ _ _ _).reading
  · exact recvStellarMessage_reading
  · exact recvStellarMessage_reading

end Session

/-- An end that has received the first `d` of the messages `sent`: it has counted the sealed ones
since it has its keys, and it has its keys since the HELLO. -/
structure RecvOk (sent : List AuthenticatedMessage) (d : ℕ) (p : Peer) : Prop where
  le : d ≤ sent.length
  connecting : p.connecting = true → d = 0
  heard : p.keyed = true → 0 < helloCount (sent.take d)
  keyed : p.keyed = true → p.reading = true → p.mState ≠ .CLOSING →
    p.mRecvMacSeq = UInt64.ofNat (sealedCount (sent.take d))
  unkeyed : p.keyed = false → p.reading = true → p.mState ≠ .CLOSING →
    helloCount (sent.take d) = 0

namespace RecvOk

variable {sent sent' : List AuthenticatedMessage} {d : ℕ} {p p' : Peer}

/-- More may be sent. -/
theorem mono (h : RecvOk sent d p) (hsent : sent <+: sent') : RecvOk sent' d p := by
  obtain ⟨more, rfl⟩ := hsent
  have htake : (sent ++ more).take d = sent.take d := List.take_append_of_le_length h.le
  refine ⟨?_, h.connecting, ?_, ?_, ?_⟩
  · rw [List.length_append]
    exact h.le.trans (Nat.le_add_right _ _)
  · rw [htake]
    exact h.heard
  · rw [htake]
    exact h.keyed
  · rw [htake]
    exact h.unkeyed

/-- The end goes on by itself. -/
theorem later (h : RecvOk sent d p) (hlater : p.Later p')
    (hstate : p'.mState ≠ .CLOSING → p.mState ≠ .CLOSING) : RecvOk sent d p' := by
  refine ⟨h.le, ?_, ?_, ?_, ?_⟩
  · rw [hlater.connecting]
    exact h.connecting
  · rw [hlater.keyed]
    exact h.heard
  · rw [hlater.keyed, hlater.reading, hlater.recvSeq]
    exact fun hk hr hs => h.keyed hk hr (hstate hs)
  · rw [hlater.keyed, hlater.reading]
    exact fun hk hr hs => h.unkeyed hk hr (hstate hs)

theorem startRead (h : RecvOk sent d p) (hread : p.reading = true) (env : Env) :
    RecvOk sent d (p.startRead env) :=
  ⟨h.le, h.connecting, h.heard, fun hk _ hs => h.keyed hk hread hs,
    fun hk _ hs => h.unkeyed hk hread hs⟩

/-- An end that does not read any more. -/
theorem dead {m : AuthenticatedMessage} (h : RecvOk sent d p) (hm : sent[d]? = some m)
    (hdead : p'.mState = .CLOSING ∨ p'.reading = false) (hconn : p'.connecting = false)
    (hkeyed : p'.keyed = true → p.keyed = true ∨ m.message.isHello = true) :
    RecvOk sent (d + 1) p' := by
  obtain ⟨hlt, hget⟩ := List.getElem?_eq_some_iff.mp hm
  refine ⟨hlt, fun hc => ?_, fun hk => ?_, fun _ hr hs => ?_, fun _ hr hs => ?_⟩
  · exact absurd (hconn.symm.trans hc) (by simp)
  · rw [List.take_add_one, hm, helloCount_append]
    rcases hkeyed hk with hk | hk
    · exact Nat.add_pos_left (h.heard hk) _
    · exact Nat.add_pos_right _ (by simp [helloCount, hk])
  · rcases hdead with hdead | hdead
    · exact absurd hdead hs
    · exact absurd (hdead.symm.trans hr) (by simp)
  · rcases hdead with hdead | hdead
    · exact absurd hdead hs
    · exact absurd (hdead.symm.trans hr) (by simp)

end RecvOk

/-- Where no HELLO is, nothing is sealed. -/
theorem Log.sealedCount_eq_zero {app : Application} {pub : Curve25519Public} {nonce : Nonce}
    {key : HmacSha256Key} {keyed : Bool} {seq : UInt64} {sent l : List AuthenticatedMessage}
    (h : Log app pub nonce key keyed seq sent) (hl : l <+: sent) (hhello : helloCount l = 0) :
    sealedCount l = 0 := by
  refine List.countP_eq_zero.mpr fun m hm hsealed => ?_
  obtain ⟨pre, post, rfl⟩ := List.append_of_mem hm
  obtain ⟨more, rfl⟩ := hl
  have hpos := (h.sealed pre m (post ++ more) (by simp) hsealed).2.2
  rw [helloCount_append] at hhello
  omega

/-- What an event does to one end: after it, `d` of the messages `sent` have arrived. The keys only
change when the HELLO `elo?` arrives. -/
structure Done (app : Application) (env : Env) (sent : List AuthenticatedMessage) (d : ℕ)
    (elo? : Option Hello) (s s' : Session) : Prop where
  peer : s'.peer.Ok app s.peerAuth.mECDHPublicKey
  auth : s'.peerAuth.Ok app
  same : s.peerAuth.SameKeys s'.peerAuth
  recv : RecvOk sent d s'.peer
  role : s'.peer.mRole = s.peer.mRole
  nonce : s'.peer.mSendNonce = s.peer.mSendNonce
  sent : s.peer.sent <+: s'.peer.sent
  keys : (s'.peer.keyed = s.peer.keyed ∧ s'.peer.mSendMacKey = s.peer.mSendMacKey ∧
      s'.peer.mRecvMacKey = s.peer.mRecvMacKey) ∨
    ∃ elo, elo? = some elo ∧ s.peer.shouldAbort env = false ∧
      s'.peer.mSendMacKey = (s.helloKeys app elo).1 ∧ s'.peer.mRecvMacKey = (s.helloKeys app elo).2.1

/-- A message `m` that the end `q` has sent is the next to arrive at the end of `s`. -/
structure Arrives (app app' : Application) (pub' : Curve25519Public) (s : Session) (q : Peer) (d : ℕ)
    (m : AuthenticatedMessage) : Prop where
  peer : s.peer.Ok app s.peerAuth.mECDHPublicKey
  auth : s.peerAuth.Ok app
  other : q.Ok app' pub'
  crypto : app'.crypto = app.crypto
  recv : RecvOk q.sent d s.peer
  keys : s.peer.keyed = true → q.keyed = true → q.mSendMacKey = s.peer.mRecvMacKey
  reading : s.peer.reading = true
  next : q.sent[d]? = some m

namespace Arrives

variable {app app' : Application} {pub' : Curve25519Public} {s : Session} {q : Peer} {d : ℕ}
  {m : AuthenticatedMessage} {env : Env}

theorem take_succ (h : Arrives app app' pub' s q d m) :
    q.sent.take (d + 1) = q.sent.take d ++ [m] := by
  rw [List.take_add_one, h.next]
  rfl

theorem split (h : Arrives app app' pub' s q d m) :
    q.sent = q.sent.take d ++ m :: q.sent.drop (d + 1) := by
  conv_lhs => rw [← List.take_append_drop (d + 1) q.sent, h.take_succ]
  simp

theorem connecting (h : Arrives app app' pub' s q d m) : s.peer.connecting = false := by
  by_contra hc
  have hread := (h.peer.waiting (by simpa using hc)).1
  rw [h.reading] at hread
  cases hread

/-- A HELLO comes once. -/
theorem hello_unkeyed (h : Arrives app app' pub' s q d m) (hm : m.message.isHello = true) :
    s.peer.keyed = false := by
  by_contra hk
  have hheard := h.recv.heard (by simpa using hk)
  have honce := h.other.once
  rw [h.split] at honce
  have hmore : helloCount (m :: q.sent.drop (d + 1)) = helloCount (q.sent.drop (d + 1)) + 1 := by
    simp [helloCount, hm]
  rw [helloCount_append, hmore] at honce
  omega

/-- A sealed message has the number and the key that are expected. -/
theorem sealed (h : Arrives app app' pub' s q d m) (hm : m.message.isSealed = true)
    (hstate : s.peer.mState ≠ .CLOSING) :
    s.peer.keyed = true ∧ m.sequence = s.peer.mRecvMacSeq ∧
      m.mac = app.crypto.hmacSha256 s.peer.mRecvMacKey m.sequence m.message := by
  obtain ⟨hseq, hmac, hhello⟩ := h.other.log.sealed _ m _ h.split hm
  have hkeyed : s.peer.keyed = true := by
    by_contra hk
    rw [h.recv.unkeyed (by simpa using hk) h.reading hstate] at hhello
    cases hhello
  have hother : q.keyed = true := by
    by_contra hk
    have hzero := h.other.log.unkeyed (by simpa using hk)
    rw [h.split] at hzero
    simp [sealedCount, hm] at hzero
  refine ⟨hkeyed, ?_, ?_⟩
  · rw [hseq, h.recv.keyed hkeyed h.reading hstate]
  · rw [hmac, h.crypto, h.keys hkeyed hother]

/-- Nothing is rejected. -/
theorem not_rejected (h : Arrives app app' pub' s q d m) (habort : s.peer.shouldAbort env = false)
    (hgot : s.peer.mState.gotHello = true) (herror : m.message.isError = false) :
    m.sequence = s.peer.mRecvMacSeq ∧
      m.mac = app.crypto.hmacSha256 s.peer.mRecvMacKey m.sequence m.message := by
  have hstate : s.peer.mState ≠ .CLOSING := by
    intro hs
    simp [Peer.shouldAbort, hs] at habort
  cases hsealed : m.message.isSealed with
  | true => exact (h.sealed hsealed hstate).2
  | false =>
    -- what is not sealed and no error is a HELLO, which comes before the keys
    exfalso
    have hhello : m.message.isHello = true := by
      cases hmsg : m.message <;>
        simp_all [StellarMessage.isSealed, StellarMessage.isError, StellarMessage.isHello]
    have hkeyed : s.peer.keyed = true := h.peer.state_keyed (by
      cases hs : s.peer.mState <;> simp_all [PeerState.gotHello])
    rw [h.hello_unkeyed hhello] at hkeyed
    cases hkeyed

/-- The end goes on with the keys it has. -/
theorem done_later (h : Arrives app app' pub' s q d m) {p' : Peer} (hlater : s.peer.Later p')
    (hok : p'.Ok app s.peerAuth.mECDHPublicKey) (hrecv : RecvOk q.sent (d + 1) p') :
    Done app env q.sent (d + 1) m.message.hello? s ⟨p', s.peerAuth⟩ :=
  ⟨hok, h.auth, ⟨rfl, rfl⟩, hrecv, hlater.role, hlater.nonce, hlater.sent,
    Or.inl ⟨hlater.keyed, hlater.sendKey, hlater.recvKey⟩⟩

theorem done_closing (h : Arrives app app' pub' s q d m) {p' : Peer} (hlater : s.peer.Later p')
    (hok : p'.Ok app s.peerAuth.mECDHPublicKey) (hstate : p'.mState = .CLOSING) :
    Done app env q.sent (d + 1) m.message.hello? s ⟨p', s.peerAuth⟩ := by
  refine h.done_later hlater hok (h.recv.dead h.next (Or.inl hstate) ?_ fun hk => Or.inl ?_)
  · rw [hlater.connecting]
    exact h.connecting
  · rw [hlater.keyed] at hk
    exact hk

/-- A sealed message was counted. -/
theorem done_sealed (env : Env) (h : Arrives app app' pub' s q d m) (hm : m.message.isSealed = true)
    (hstate : s.peer.mState ≠ .CLOSING) {p' : Peer}
    (hlater : Peer.Later { s.peer with mRecvMacSeq := s.peer.mRecvMacSeq + 1 } p')
    (hok : p'.Ok app s.peerAuth.mECDHPublicKey) : Done app env q.sent (d + 1) m.message.hello? s ⟨p', s.peerAuth⟩ := by
  have hkeyed := (h.sealed hm hstate).1
  obtain ⟨hlt, -⟩ := List.getElem?_eq_some_iff.mp h.next
  refine ⟨hok, h.auth, ⟨rfl, rfl⟩, ⟨hlt, fun hc => ?_, fun _ => ?_, fun _ _ _ => ?_, fun hk => ?_⟩,
    hlater.role, hlater.nonce, hlater.sent,
    Or.inl ⟨hlater.keyed, hlater.sendKey, hlater.recvKey⟩⟩
  · rw [hlater.connecting] at hc
    exact absurd (h.connecting.symm.trans hc) (by simp)
  · rw [h.take_succ, helloCount_append]
    exact Nat.add_pos_left (h.recv.heard hkeyed) _
  · have hcount : sealedCount (q.sent.take (d + 1)) = sealedCount (q.sent.take d) + 1 := by
      rw [h.take_succ]
      simp [sealedCount, hm]
    rw [hcount, UInt64.ofNat_add, ← h.recv.keyed hkeyed h.reading hstate]
    exact hlater.recvSeq
  · rw [hlater.keyed] at hk
    exact absurd (hkeyed.symm.trans hk) (by simp)

theorem done_hello (h : Arrives app app' pub' s q d m) {elo : Hello} (hm : m.message = .HELLO elo)
    (habort : s.peer.shouldAbort env = false) (l : List (StellarMessage × Bool)) :
    Done app env q.sent (d + 1) m.message.hello? s
      (Session.recvHello app env { s with peer := { s.peer with handed := l } } elo) := by
  have hhello : m.message.isHello = true := by rw [hm]; rfl
  have hkeyed := h.hello_unkeyed hhello
  have hstate : s.peer.mState ≠ .CLOSING := by
    intro hs
    simp [Peer.shouldAbort, hs] at habort
  obtain ⟨t, ht⟩ : ∃ t : Session, t = { s with peer := { s.peer with handed := l } } := ⟨_, rfl⟩
  have hpeer : s.peer.Later t.peer := by
    rw [ht]
    exact ⟨rfl, rfl, rfl, rfl, List.prefix_rfl, rfl, rfl, rfl, rfl⟩
  have hauth : t.peerAuth = s.peerAuth := by rw [ht]
  have hkeys : t.helloKeys app elo = s.helloKeys app elo := by
    rw [ht]
    rfl
  have hok : t.peer.Ok app t.peerAuth.mECDHPublicKey := by
    rw [ht]
    exact h.peer.setHanded l
  have hread : t.peer.reading = true := hpeer.reading.trans h.reading
  rw [← ht]
  obtain ⟨hok', hauth', hsame, hcases⟩ := Session.recvHello_spec hok
    (by rw [hauth]; exact h.auth) hread
  rw [hauth] at hok' hsame
  have hsplit : ∀ p', s.peer.Later p' → p'.mState = .CLOSING → RecvOk q.sent (d + 1) p' := by
    intro p' hlater hclosing
    refine h.recv.dead h.next (Or.inl hclosing) ?_ fun _ => Or.inr hhello
    rw [hlater.connecting]
    exact h.connecting
  rcases hcases with ⟨hlater, hclosing⟩ | ⟨hgot, hlater⟩
  · have hl := hpeer.trans hlater
    exact ⟨hok', hauth', hsame, hsplit _ hl hclosing, hl.role, hl.nonce, hl.sent,
      Or.inl ⟨hl.keyed, hl.sendKey, hl.recvKey⟩⟩
  · -- the peer after the greeting
    obtain ⟨hrole, hnonce, hsent, hconn, hk, hskey, hrkey, hseq⟩ :
        (Session.greet app env t elo).peer.mRole = s.peer.mRole ∧
        (Session.greet app env t elo).peer.mSendNonce = s.peer.mSendNonce ∧
        s.peer.sent <+: (Session.greet app env t elo).peer.sent ∧
        (Session.greet app env t elo).peer.connecting = s.peer.connecting ∧
        (Session.greet app env t elo).peer.keyed = true ∧
        (Session.greet app env t elo).peer.mSendMacKey = (s.helloKeys app elo).1 ∧
        (Session.greet app env t elo).peer.mRecvMacKey = (s.helloKeys app elo).2.1 ∧
        (Session.greet app env t elo).peer.mRecvMacSeq = 0 := by
      rw [← hkeys, ht]
      simp only [Session.greet]
      split_ifs
      · exact ⟨rfl, rfl, List.prefix_append _ _, rfl, rfl, rfl, rfl, rfl⟩
      · exact ⟨rfl, rfl, List.prefix_rfl, rfl, rfl, rfl, rfl, rfl⟩
    have hzero : sealedCount (q.sent.take (d + 1)) = 0 := by
      have hnone := h.recv.unkeyed hkeyed h.reading hstate
      have htake := h.other.log.sealedCount_eq_zero (List.take_prefix d q.sent) hnone
      rw [h.take_succ, sealedCount_append, htake]
      simp [sealedCount, hm, StellarMessage.isSealed]
    obtain ⟨hlt, -⟩ := List.getElem?_eq_some_iff.mp h.next
    refine ⟨hok', hauth', hsame, ⟨hlt, fun hc => ?_, fun _ => ?_, fun _ _ _ => ?_, fun hk' => ?_⟩,
      hlater.role.trans hrole, hlater.nonce.trans hnonce, hsent.trans hlater.sent,
      Or.inr ⟨elo, by rw [hm]; rfl, habort, hlater.sendKey.trans hskey, hlater.recvKey.trans hrkey⟩⟩
    · rw [hlater.connecting, hconn, h.connecting] at hc
      cases hc
    · rw [h.take_succ, helloCount_append]
      exact Nat.add_pos_right _ (by simp [helloCount, hhello])
    · rw [hzero]
      exact hlater.recvSeq.trans hseq
    · rw [hlater.keyed, hk] at hk'
      cases hk'

theorem keyed_of_gotHello (h : Arrives app app' pub' s q d m)
    (habort : s.peer.shouldAbort env = false) (hgot : s.peer.mState.gotHello = true) :
    s.peer.keyed = true := by
  refine h.peer.state_keyed ?_
  cases hs : s.peer.mState <;> simp_all [PeerState.gotHello, Peer.shouldAbort]

theorem done_recvMessage (h : Arrives app app' pub' s q d m)
    (habort : s.peer.shouldAbort env = false) :
    Done app env q.sent (d + 1) m.message.hello? s (s.recvMessage app env m) := by
  have hstate : s.peer.mState ≠ .CLOSING := by
    intro hs
    simp [Peer.shouldAbort, hs] at habort
  obtain ⟨elo?, helo⟩ : ∃ elo?, elo? = m.message.hello? := ⟨_, rfl⟩
  rw [← helo]
  simp only [Session.recvMessage, habort, Bool.false_eq_true, if_false]
  split_ifs with hchecked hseq hmac
  · simp only [Bool.and_eq_true, Bool.not_eq_true'] at hchecked
    exact absurd (h.not_rejected habort hchecked.1 hchecked.2).1 hseq
  · simp only [Bool.and_eq_true, Bool.not_eq_true'] at hchecked
    exact absurd (h.not_rejected habort hchecked.1 hchecked.2).2 hmac
  · simp only [Bool.and_eq_true, Bool.not_eq_true'] at hchecked
    have hkeyed := h.keyed_of_gotHello habort hchecked.1
    have habort' : Peer.shouldAbort { s.peer with mRecvMacSeq := s.peer.mRecvMacSeq + 1 } env =
      false := habort
    have hcounted := h.peer.setRecvMacSeq (s.peer.mRecvMacSeq + 1)
    simp only [Session.recvStellarMessage, habort', Bool.false_eq_true, if_false]
    cases hm : m.message with
    | ERROR_MSG code text => simp [hm, StellarMessage.isError] at hchecked
    | HELLO elo =>
      have hunkeyed := h.hello_unkeyed (by rw [hm]; rfl)
      exact absurd (hunkeyed.symm.trans hkeyed) (by simp)
    | AUTH unused =>
      obtain ⟨t, ht⟩ : ∃ t : Session, t = ⟨{ s.peer with
          mRecvMacSeq := s.peer.mRecvMacSeq + 1
          handed := s.peer.handed ++ [(.AUTH unused, true)] }, s.peerAuth⟩ := ⟨_, rfl⟩
      have hok : t.peer.Ok app t.peerAuth.mECDHPublicKey := by
        rw [ht]
        exact hcounted.setHanded _
      have hlater : Peer.Later { s.peer with mRecvMacSeq := s.peer.mRecvMacSeq + 1 } t.peer := by
        rw [ht]
        exact .setHanded _ _
      have hdone := h.done_sealed env (by rw [hm]; rfl) hstate
        (hlater.trans (@Session.recvAuth_later app env _))
        (by simpa only [ht] using Session.recvAuth_ok hok (by rw [ht]; exact hkeyed))
      rw [ht] at hdone
      rw [helo]
      exact hdone
    | payload type contents =>
      rw [helo]
      simp only
      split_ifs
      · exact h.done_sealed env (by rw [hm]; rfl) hstate (.drop _) hcounted.drop
      · refine h.done_sealed env (by rw [hm]; rfl) hstate ?_ ((hcounted.setHanded _).sendReplies hkeyed _)
        exact (Peer.Later.setHanded _ _).trans (.sendReplies _ _ _)
  · have hsealed : m.message.isSealed = true → False := by
      intro hm
      have hgot := h.peer.keyed_state (h.sealed hm hstate).1
      have herror : m.message.isError = false := by
        cases hmsg : m.message <;> simp_all [StellarMessage.isSealed, StellarMessage.isError]
      simp [hgot, herror] at hchecked
    simp only [Session.recvStellarMessage, habort, Bool.false_eq_true, if_false]
    cases hm : m.message with
    | ERROR_MSG code text =>
      rw [helo]
      refine h.done_closing ?_ (h.peer.setHanded _).drop (Peer.drop_mState _)
      exact (Peer.Later.setHanded _ _).trans (.drop _)
    | HELLO elo =>
      rw [helo]
      exact h.done_hello hm habort _
    | AUTH unused => exact absurd (by rw [hm]; rfl) hsealed
    | payload type contents => exact absurd (by rw [hm]; rfl) hsealed

/-- The arrival of a message, with the read that follows. -/
theorem done_step (env : Env) (h : Arrives app app' pub' s q d m) :
    Done app env q.sent (d + 1) m.message.hello? s (s.step app (.recvMessage m env)) := by
  simp only [Session.step, if_pos h.reading]
  cases habort : s.peer.shouldAbort env with
  | true =>
    have heq : s.recvMessage app env m = s := by
      unfold Session.recvMessage
      rw [if_pos habort]
    rw [heq]
    refine ⟨h.peer.startRead h.reading env, h.auth, ⟨rfl, rfl⟩, ?_, rfl, rfl, List.prefix_rfl,
      Or.inl ⟨rfl, rfl, rfl⟩⟩
    refine h.recv.dead h.next (Or.inr ?_) h.connecting fun hk => Or.inl hk
    simp [Peer.startRead, habort]
  | false =>
    have hdone := h.done_recvMessage habort
    have hread : (s.recvMessage app env m).peer.reading = true :=
      Session.recvMessage_reading.trans h.reading
    exact ⟨hdone.peer.startRead hread env, hdone.auth, hdone.same, hdone.recv.startRead hread env,
      hdone.role, hdone.nonce, hdone.sent, hdone.keys⟩

end Arrives

/-- What happens at an end by itself. -/
theorem local_step {app : Application} (env : Env) {s : Session} {sent : List AuthenticatedMessage}
    {d : ℕ} {e : Event} (h : s.peer.Ok app s.peerAuth.mECDHPublicKey) (hauth : s.peerAuth.Ok app)
    (hrecv : RecvOk sent d s.peer) (he : e.isLocal = true) :
    Done app env sent d none s (s.step app e) := by
  have hlater : ∀ p', s.peer.Later p' → (p'.mState ≠ .CLOSING → s.peer.mState ≠ .CLOSING) →
      p'.Ok app s.peerAuth.mECDHPublicKey → Done app env sent d none s { s with peer := p' } := by
    intro p' hl hs hok
    exact ⟨hok, hauth, ⟨rfl, rfl⟩, hrecv.later hl hs, hl.role, hl.nonce, hl.sent,
      Or.inl ⟨hl.keyed, hl.sendKey, hl.recvKey⟩⟩
  have hclosing : ∀ p', s.peer.Later p' → p'.mState = .CLOSING →
      p'.Ok app s.peerAuth.mECDHPublicKey → Done app env sent d none s { s with peer := p' } :=
    fun p' hl hs hok => hlater p' hl (fun hne => absurd hs hne) hok
  have hsame : Done app env sent d none s s := hlater s.peer (.refl _) id h
  cases e with
  | connectHandler error env' =>
    simp only [Session.step]
    split_ifs with hconn
    · obtain ⟨hok, hauth', hkeys⟩ := Session.connectHandler_ok h hauth hconn error
      obtain ⟨-, hkeyed, -⟩ := h.waiting hconn
      obtain rfl := hrecv.connecting hconn
      obtain ⟨hrole, hnonce, hsent, hk, hskey, hrkey⟩ :
          (s.connectHandler app env' error).peer.mRole = s.peer.mRole ∧
          (s.connectHandler app env' error).peer.mSendNonce = s.peer.mSendNonce ∧
          s.peer.sent <+: (s.connectHandler app env' error).peer.sent ∧
          (s.connectHandler app env' error).peer.keyed = s.peer.keyed ∧
          (s.connectHandler app env' error).peer.mSendMacKey = s.peer.mSendMacKey ∧
          (s.connectHandler app env' error).peer.mRecvMacKey = s.peer.mRecvMacKey := by
        cases error with
        | true =>
          obtain ⟨hr, hn, -, -, hs, hk, hsk, hrk, -⟩ :=
            Peer.Later.drop { s.peer with connecting := false }
          exact ⟨hr, hn, hs, hk, hsk, hrk⟩
        | false => exact ⟨rfl, rfl, List.prefix_append _ _, rfl, rfl, rfl⟩
      refine ⟨hok, hauth', hkeys, ⟨Nat.zero_le _, fun _ => rfl, fun hk' => ?_, fun hk' => ?_,
        fun _ _ _ => rfl⟩, hrole, hnonce, hsent, Or.inl ⟨hk, hskey, hrkey⟩⟩ <;>
      · rw [hk, hkeyed] at hk'
        cases hk'
    · exact hsame
  | drop => exact hclosing _ (.drop _) (Peer.drop_mState _) h.drop
  | shutdown => exact hclosing _ (.dropWith _ _ _ _) (Peer.dropWith_mState _ _ _) (h.dropWith _ _)
  | evict =>
    exact hlater _ ⟨rfl, rfl, rfl, rfl, List.prefix_rfl, rfl, rfl, rfl, rfl⟩ id h.unlist
  | send type contents =>
    simp only [Session.step]
    split_ifs with hauthenticated
    · have hkeyed := h.state_keyed (Or.inr (of_decide_eq_true hauthenticated))
      exact hlater _ (.sendMessage _ _ _) id (h.sendSealed hkeyed rfl)
    · exact hsame
  | recvMessage msg env' => cases he
  | recvCorrupt env' => cases he
  | getSharedKey remotePublic role => cases he

/-! ## Both ends -/

section Agree

variable (app : Side → Application)

/-- The shared key of a connection, as a node derives it. -/
def derivedKey (auth : Side → PeerAuth) (caller n : Side) : HmacSha256Key :=
  (auth n).deriveSharedKey (app n) (auth n.other).mECDHPublicKey (roleOf caller n)

/-- A connection between two nodes: both ends are what they should be, each has received a part of
what the other one has sent, and the keys they have are those of this connection. -/
structure Connection.Ok (auth : Side → PeerAuth) (c : Connection) : Prop where
  role : ∀ n, (c.peer n).mRole = roleOf c.caller n
  peer : ∀ n, (c.peer n).Ok (app n) (auth n).mECDHPublicKey
  recv : ∀ n, RecvOk (c.peer n.other).sent (c.delivered n) (c.peer n)
  keys : ∀ n, (c.peer n).keyed = true →
    (c.peer n).mSendMacKey = PeerAuth.sendKeyOf (app n).crypto (derivedKey app auth c.caller n)
      (c.peer n).mSendNonce (c.peer n.other).mSendNonce (roleOf c.caller n) ∧
    (c.peer n).mRecvMacKey = PeerAuth.recvKeyOf (app n).crypto (derivedKey app auth c.caller n)
      (c.peer n).mSendNonce (c.peer n.other).mSendNonce (roleOf c.caller n)

structure Network.Ok (net : Network) : Prop where
  auth : ∀ n, (net.auth n).Ok (app n)
  connections : ∀ c ∈ net.connections, c.Ok app net.auth

variable {app} {auth auth' : Side → PeerAuth} {c : Connection}

/-- Both nodes use the same functions. -/
def SameCrypto (app : Side → Application) : Prop := (app .A).crypto = (app .B).crypto

theorem SameCrypto.other (h : SameCrypto app) (n : Side) : (app n.other).crypto = (app n).crypto := by
  cases n with
  | A => exact h.symm
  | B => exact h

/-- ECDH is commutative. -/
def EcdhComm (crypto : Crypto) : Prop :=
  ∀ a b, crypto.crypto_scalarmult a (crypto.EcdhDerivePublic b) =
    crypto.crypto_scalarmult b (crypto.EcdhDerivePublic a)

/-- The two nodes derive the same key for a connection. -/
theorem derivedKey_other (hcrypto : SameCrypto app) (hcomm : ∀ n, EcdhComm (app n).crypto)
    (hauth : ∀ n, (auth n).Ok (app n)) (caller n : Side) :
    derivedKey app auth caller n.other = derivedKey app auth caller n := by
  have hmul : (app n).crypto.crypto_scalarmult (auth n.other).mECDHSecretKey
        (auth n).mECDHPublicKey =
      (app n).crypto.crypto_scalarmult (auth n).mECDHSecretKey (auth n.other).mECDHPublicKey := by
    have hother := (hauth n.other).derived
    rw [hcrypto.other n] at hother
    rw [(hauth n).derived, hother]
    exact hcomm n _ _
  unfold derivedKey PeerAuth.deriveSharedKey EcdhDeriveSharedKey
  rw [hcrypto.other n, Side.other_other, hmul]
  cases n <;> cases caller <;> rfl

theorem Connection.Ok.keys_agree (h : c.Ok app auth) (hcrypto : SameCrypto app)
    (hcomm : ∀ n, EcdhComm (app n).crypto) (hauth : ∀ n, (auth n).Ok (app n)) {n : Side}
    (hn : (c.peer n).keyed = true) (hother : (c.peer n.other).keyed = true) :
    (c.peer n.other).mSendMacKey = (c.peer n).mRecvMacKey := by
  rw [(h.keys n.other hother).1, (h.keys n hn).2, hcrypto.other n,
    derivedKey_other hcrypto hcomm hauth, Side.other_other]
  obtain ⟨caller, -, -⟩ := c
  cases n <;> cases caller <;> rfl

/-- Nothing depends on the caches and certificates. -/
theorem Connection.Ok.sameKeys (h : c.Ok app auth) (hsame : ∀ n, (auth n).SameKeys (auth' n)) :
    c.Ok app auth' := by
  have hderived : ∀ n, derivedKey app auth' c.caller n = derivedKey app auth c.caller n := by
    intro n
    unfold derivedKey PeerAuth.deriveSharedKey
    rw [(hsame n).secret, (hsame n).pub, (hsame n.other).pub]
  refine ⟨h.role, fun n => ?_, h.recv, fun n => ?_⟩
  · rw [(hsame n).pub]
    exact h.peer n
  · rw [hderived n]
    exact h.keys n

theorem Connection.Ok.create (app : Side → Application) (auth : Side → PeerAuth) (caller : Side)
    (nonce : Side → Nonce) : (Connection.create caller nonce).Ok app auth := by
  refine ⟨fun n => rfl, fun n => Peer.Ok.create _ _ _ _, fun n => ?_, fun n hk => ?_⟩
  · refine ⟨Nat.zero_le _, fun _ => rfl, fun hk => ?_, fun hk => ?_, fun _ _ _ => rfl⟩ <;> cases hk
  · cases hk

theorem Side.eq_or_eq_other (n m : Side) : m = n ∨ m = n.other := by
  cases n <;> cases m <;> simp [other]

/-- One end goes on. -/
theorem Connection.Ok.done (h : c.Ok app auth) {n : Side} {env : Env} {d : ℕ} {elo? : Option Hello}
    {s' : Session}
    (hdone : Done (app n) env (c.peer n.other).sent d elo? ⟨c.peer n, auth n⟩ s')
    (hhello : ∀ elo, elo? = some elo → (c.peer n).shouldAbort env = false →
      Session.helloKeys (app n) ⟨c.peer n, auth n⟩ elo =
        (PeerAuth.sendKeyOf (app n).crypto (derivedKey app auth c.caller n) (c.peer n).mSendNonce
            (c.peer n.other).mSendNonce (roleOf c.caller n),
          PeerAuth.recvKeyOf (app n).crypto (derivedKey app auth c.caller n) (c.peer n).mSendNonce
            (c.peer n.other).mSendNonce (roleOf c.caller n),
          (Session.helloKeys (app n) ⟨c.peer n, auth n⟩ elo).2.2)) :
    Connection.Ok app (Function.update auth n s'.peerAuth)
      ⟨c.caller, Function.update c.peer n s'.peer, Function.update c.delivered n d⟩ := by
  have hauth : ∀ m, (auth m).SameKeys (Function.update auth n s'.peerAuth m) := by
    intro m
    by_cases hm : m = n
    · subst hm
      rw [Function.update_self]
      exact hdone.same
    · rw [Function.update_of_ne hm]
      exact ⟨rfl, rfl⟩
  refine Connection.Ok.sameKeys ⟨fun m => ?_, fun m => ?_, fun m => ?_, fun m hk => ?_⟩ hauth
  · rcases n.eq_or_eq_other m with rfl | rfl
    · simp only [Function.update_self]
      exact hdone.role.trans (h.role m)
    · simp only [Function.update_of_ne n.other_ne]
      exact h.role _
  · rcases n.eq_or_eq_other m with rfl | rfl
    · simp only [Function.update_self]
      exact hdone.peer
    · simp only [Function.update_of_ne n.other_ne]
      exact h.peer _
  · rcases n.eq_or_eq_other m with rfl | rfl
    · simp only [Function.update_self, Function.update_of_ne m.other_ne]
      exact hdone.recv
    · simp only [Side.other_other, Function.update_self, Function.update_of_ne n.other_ne]
      have hrecv := h.recv n.other
      rw [Side.other_other] at hrecv
      exact hrecv.mono hdone.sent
  · rcases n.eq_or_eq_other m with rfl | rfl
    · simp only [Function.update_self, Function.update_of_ne m.other_ne] at hk ⊢
      rw [hdone.nonce]
      rcases hdone.keys with ⟨hkeyed, hskey, hrkey⟩ | ⟨elo, helo, habort, hskey, hrkey⟩
      · rw [hskey, hrkey]
        exact h.keys m (hkeyed ▸ hk)
      · rw [hskey, hrkey, hhello elo helo habort]
        exact ⟨rfl, rfl⟩
    · simp only [Side.other_other, Function.update_self, Function.update_of_ne n.other_ne] at hk ⊢
      have hkeys := h.keys n.other hk
      rw [Side.other_other] at hkeys
      rw [hdone.nonce]
      exact hkeys

end Agree

/-! ## Runs -/

namespace Network

variable {app : Side → Application} {net : Network}

/-- A node goes on at one of its connections. -/
theorem Ok.set (h : net.Ok app) {n : Side} {auth' : PeerAuth} {c' : Connection} {i : ℕ}
    (hauth : auth'.Ok (app n)) (hsame : (net.auth n).SameKeys auth')
    (hc' : c'.Ok app (Function.update net.auth n auth')) :
    Network.Ok app ⟨Function.update net.auth n auth', net.connections.set i c'⟩ := by
  have hkeys : ∀ m, (net.auth m).SameKeys (Function.update net.auth n auth' m) := by
    intro m
    by_cases hm : m = n
    · subst hm
      rw [Function.update_self]
      exact hsame
    · rw [Function.update_of_ne hm]
      exact ⟨rfl, rfl⟩
  refine ⟨fun m => ?_, fun c hc => ?_⟩
  · by_cases hm : m = n
    · subst hm
      simp only [Function.update_self]
      exact hauth
    · simp only [Function.update_of_ne hm]
      exact h.auth m
  · rcases List.mem_or_eq_of_mem_set hc with hc | rfl
    · exact (h.connections c hc).sameKeys hkeys
    · exact hc'

/-- The next message of a connection arrives. -/
theorem Ok.arrives (h : net.Ok app) (hcrypto : SameCrypto app) (hcomm : ∀ n, EcdhComm (app n).crypto)
    {c : Connection} {i : ℕ} {n : Side} {m : AuthenticatedMessage} (hc : net.connections[i]? = some c)
    (hm : c.next n = some m) (hread : (c.peer n).reading = true) :
    Arrives (app n) (app n.other) (net.auth n.other).mECDHPublicKey (net.session c n)
      (c.peer n.other) (c.delivered n) m := by
  have hok := h.connections c (List.mem_of_getElem? hc)
  exact ⟨hok.peer n, h.auth n, hok.peer n.other, hcrypto.other n, hok.recv n,
    fun hk hk' => hok.keys_agree hcrypto hcomm h.auth hk hk', hread, hm⟩

theorem Ok.act (h : net.Ok app) (hcrypto : SameCrypto app) (hcomm : ∀ n, EcdhComm (app n).crypto)
    {a : Action} (hfits : net.CacheFits app a) : (net.act app a).Ok app := by
  cases a with
  | connect caller nonce =>
    refine ⟨h.auth, fun c hc => ?_⟩
    rcases List.mem_append.mp hc with hc | hc
    · exact h.connections c hc
    · rw [List.mem_singleton.mp hc]
      exact Connection.Ok.create _ _ _ _
  | event i n e =>
    simp only [Network.act]
    cases hc : net.connections[i]? with
    | none => exact h
    | some c =>
      simp only
      split_ifs with he
      · have hok := h.connections c (List.mem_of_getElem? hc)
        have hdone := local_step {} (s := net.session c n) (hok.peer n) (h.auth n)
          (hok.recv n) he
        refine h.set hdone.auth hdone.same ?_
        have hset := hok.done hdone (by simp)
        rw [Function.update_eq_self] at hset
        exact hset
      · exact h
  | deliver i n env =>
    simp only [Network.act]
    cases hc : net.connections[i]? with
    | none => exact h
    | some c =>
      simp only
      cases hm : c.next n with
      | none => exact h
      | some m =>
        simp only
        split_ifs with hread
        · have hok := h.connections c (List.mem_of_getElem? hc)
          have harrives := h.arrives hcrypto hcomm hc hm hread
          have hdone := harrives.done_step
            { env with peerIDs := env.peerIDs ++ net.otherPeerIDs i n }
          refine h.set hdone.auth hdone.same (hok.done hdone fun elo helo habort => ?_)
          -- the HELLO is that of the other end
          have hmsg : m.message = .HELLO elo := by
            cases hmm : m.message <;> simp_all [StellarMessage.hello?]
          obtain ⟨hnonce, hpub⟩ := (hok.peer n.other).log.content m (List.mem_of_getElem? hm) elo hmsg
          obtain ⟨hskey, hrkey⟩ := Session.helloKeys_eq (s := ⟨c.peer n, net.auth n⟩)
            (h.auth n) (hfits c hc hread habort m hm elo (by rw [hmsg]; rfl))
          simp only [hnonce, hpub, hok.role n] at hskey hrkey
          exact Prod.ext hskey (Prod.ext hrkey rfl)
        · exact h
  | getSharedKey n remotePublic role =>
    obtain ⟨hauth, hsame⟩ := (h.auth n).getSharedKey remotePublic role
    have hset := h.set (i := net.connections.length) hauth hsame
      (Connection.Ok.create app _ n fun _ => 0)
    rw [List.set_eq_of_length_le le_rfl] at hset
    exact hset

theorem run_snoc (acts : List Action) (a : Action) :
    net.run app (acts ++ [a]) = (net.run app acts).act app a :=
  List.foldl_append

theorem Started.ok (h : net.Started app) : net.Ok app :=
  ⟨fun n => ⟨h.derived n, h.cert n, h.cache n⟩, fun c hc => by simp [h.connections] at hc⟩

theorem Started.run_ok (h : net.Started app) (hcrypto : SameCrypto app)
    (hcomm : ∀ n, EcdhComm (app n).crypto) {acts : List Action}
    (hfits : ∀ pre a post, acts = pre ++ a :: post → (net.run app pre).CacheFits app a) :
    (net.run app acts).Ok app := by
  induction acts using List.reverseRecOn with
  | nil => exact h.ok
  | append_singleton acts a ih =>
    rw [run_snoc]
    refine (ih fun pre a' post heq => ?_).act hcrypto hcomm (hfits acts a [] rfl)
    exact hfits pre a' (post ++ [a]) (by rw [heq]; simp)

end Network

/-- **Both ends of every connection agree.** If each HELLO that is processed finds either no key or
the right one in the cache, then in every state of the run the keys agree, and no message is refused
for its sequence number or its MAC. -/
theorem connections_agree (app : Side → Application) (hcrypto : SameCrypto app)
    (hcomm : ∀ n, EcdhComm (app n).crypto) (net : Network) (hstart : net.Started app)
    (acts : List Action)
    (hfits : ∀ pre a post, acts = pre ++ a :: post → (net.run app pre).CacheFits app a) :
    (∀ pre post, acts = pre ++ post → (net.run app pre).KeysAgree) ∧
      ∀ pre i n env post, acts = pre ++ .deliver i n env :: post →
        ¬ (net.run app pre).rejects app i n env := by
  have hok : ∀ pre post, acts = pre ++ post → (net.run app pre).Ok app := by
    intro pre post heq
    refine hstart.run_ok hcrypto hcomm fun pre' a post' heq' => ?_
    exact hfits pre' a (post' ++ post) (by rw [heq, heq']; simp)
  refine ⟨fun pre post heq c hc hkeyed n => ?_, ?_⟩
  · have h := hok pre post heq
    have hagree := (h.connections c hc).keys_agree hcrypto hcomm h.auth (hkeyed n.other)
      (by rw [Side.other_other]; exact hkeyed n)
    rw [Side.other_other] at hagree
    exact hagree
  · rintro pre i n env post heq ⟨c, m, hc, hm, hread, habort, hgot, herror, hreject⟩
    have harrives := (hok pre _ heq).arrives hcrypto hcomm hc hm hread
    obtain ⟨hseq, hmac⟩ := harrives.not_rejected habort hgot herror
    rcases hreject with hreject | hreject
    · exact hreject hseq
    · exact hreject hmac

/-! ## Two nodes -/

def toyApps : Side → Application
  | .A => toyApp 1
  | .B => toyApp 2

def toyNetwork : Network where
  auth
    | .A => PeerAuth.create (toyApp 1) 0 3
    | .B => PeerAuth.create (toyApp 2) 0 5

theorem toyNetwork_started : toyNetwork.Started toyApps :=
  ⟨rfl, fun n => by cases n <;> rfl, fun n => by cases n <;> rfl, fun n => by cases n <;> decide⟩

theorem toyApps_comm (n : Side) : EcdhComm (toyApps n).crypto := by
  intro a b
  cases n <;> exact (pow_mul 2 b a).symm.trans (by rw [mul_comm, pow_mul]; rfl)

/-- A connection from `A` to `B`, up to a message in each direction. -/
def oneConnection : List Action :=
  [.connect .A fun | .A => 10 | .B => 20,
    .event 0 .A (.connectHandler false {}), .deliver 0 .B {}, .deliver 0 .A {}, .deliver 0 .B {},
    .deliver 0 .A {}, .event 0 .A (.send .GET_PEERS 0), .deliver 0 .B {},
    .event 0 .B (.send .PEERS 7), .deliver 0 .A {}]

theorem connections_agree_oneConnection :
    ((toyNetwork.run toyApps oneConnection).connections.map fun c =>
        ((c.peer .A).mState, (c.peer .B).mState, (c.peer .A).mRecvMacSeq, (c.peer .B).mRecvMacSeq)) =
      [(.GOT_AUTH, .GOT_AUTH, 2, 2)] ∧
    (∀ pre post, oneConnection = pre ++ post → (toyNetwork.run toyApps pre).KeysAgree) ∧
      ∀ pre i n env post, oneConnection = pre ++ .deliver i n env :: post →
        ¬ (toyNetwork.run toyApps pre).rejects toyApps i n env := by
  have hfits : ∀ i < oneConnection.length, ∀ a ∈ oneConnection[i]?,
      (toyNetwork.run toyApps (oneConnection.take i)).CacheFits toyApps a := by
    decide +kernel
  refine ⟨by decide +kernel,
    connections_agree toyApps rfl toyApps_comm toyNetwork toyNetwork_started oneConnection
      fun pre a post heq => ?_⟩
  have hat := hfits pre.length (by rw [heq]; simp) a (by rw [heq]; simp)
  rw [heq, List.take_left] at hat
  exact hat

/-- `A` and `B` call each other, and each hears the other's call before the answer to its own. Then
the connection from `B` is closed. -/
def crossing : List Action :=
  [.connect .A fun | .A => 10 | .B => 20, .connect .B fun | .A => 30 | .B => 40,
    .event 0 .A (.connectHandler false {}), .event 1 .B (.connectHandler false {}),
    .deliver 0 .B {}, .deliver 1 .A {}, .event 1 .A .drop, .deliver 0 .A {}]

/-- Both ends of the connection from `A` have processed the HELLO of the other, with different keys:
the AUTH of `A` is refused. -/
theorem crossing_connections :
    toyNetwork.Started toyApps ∧ SameCrypto toyApps ∧ (∀ n, EcdhComm (toyApps n).crypto) ∧
    ¬ (toyNetwork.run toyApps crossing).KeysAgree ∧
    (toyNetwork.run toyApps crossing).rejects toyApps 0 .B {} := by
  obtain ⟨c, hc⟩ : ∃ c, (toyNetwork.run toyApps crossing).connections[0]? = some c :=
    Option.isSome_iff_exists.mp (by decide +kernel)
  have hends : ((toyNetwork.run toyApps crossing).connections[0]?).all (fun c =>
      (c.peer .A).keyed && (c.peer .B).keyed && (c.peer .B).reading &&
        decide ((c.peer .B).mState = .GOT_HELLO) &&
        decide ((c.peer .A).mSendMacKey ≠ (c.peer .B).mRecvMacKey) &&
        (c.next .B).any fun m => !m.message.isError &&
          decide (m.mac ≠ toyCrypto.hmacSha256 (c.peer .B).mRecvMacKey m.sequence m.message)) = true := by
    decide +kernel
  rw [hc, Option.all_some] at hends
  simp only [Bool.and_eq_true, decide_eq_true_eq, Option.any_eq_true, Bool.not_eq_true'] at hends
  obtain ⟨⟨⟨⟨⟨hkeyedA, hkeyedB⟩, hread⟩, hstate⟩, hne⟩, m, hm, herror, hmac⟩ := hends
  refine ⟨toyNetwork_started, rfl, toyApps_comm, fun hagree => ?_, c, m, hc, hm, hread, ?_, ?_,
    herror, Or.inr hmac⟩
  · refine hne (hagree c (List.mem_of_getElem? hc) (fun n => ?_) .A)
    cases n with
    | A => exact hkeyedA
    | B => exact hkeyedB
  · simp [Peer.shouldAbort, hstate]
  · rw [hstate]
    rfl

end SmartCore.Overlay
