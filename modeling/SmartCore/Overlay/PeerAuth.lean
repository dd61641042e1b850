import Mathlib.Data.List.Basic
import Mathlib.Tactic.Common
import SmartCore.Lib.LruCache
import SmartCore.SCP.Types

/-!
# Keys for peers

The messages that peers exchange, and `PeerAuth`: the certificate a node shows to its peers, and the
keys of its connections. From the ECDH keys of two nodes a shared key is derived, which depends on
who called whom; from it and the nonces of a connection the two keys of that connection are.

Shared keys are cached by the public key of the remote node alone.

The cryptographic functions are parameters. Their arguments are the fields that the source
concatenates or marshals.
-/

namespace SmartCore.Overlay

open SCP (Uint32 Hash)

/-! ## Messages -/

abbrev NodeID := ℕ
abbrev Signature := ℕ
abbrev Nonce := ℕ
abbrev Curve25519Secret := ℕ
abbrev Curve25519Public := ℕ
abbrev HmacSha256Key := ℕ
abbrev HmacSha256Mac := ℕ

structure AuthCert where
  pubkey : Curve25519Public
  expiration : ℕ
  sig : Signature
deriving DecidableEq, Repr

structure Hello where
  ledgerVersion : Uint32
  overlayVersion : Uint32
  overlayMinVersion : Uint32
  networkID : Hash
  versionStr : String
  listeningPort : ℤ
  peerID : NodeID
  cert : AuthCert
  nonce : Nonce
deriving DecidableEq, Repr

inductive ErrorCode where
  | ERR_MISC
  | ERR_DATA
  | ERR_CONF
  | ERR_AUTH
  | ERR_LOAD
deriving DecidableEq, Repr

/-- The types of the messages that are not part of the handshake. -/
inductive PayloadType where
  | DONT_HAVE
  | GET_PEERS
  | PEERS
  | GET_TX_SET
  | TX_SET
  | TRANSACTION
  | GET_SCP_QUORUMSET
  | SCP_QUORUMSET
  | SCP_MESSAGE
  | GET_SCP_STATE
deriving DecidableEq, Repr

/-- A message. What the handlers read of a payload is not modelled. -/
inductive StellarMessage where
  | ERROR_MSG (code : ErrorCode) (msg : String)
  | HELLO (hello : Hello)
  | AUTH (unused : ℤ)
  | payload (type : PayloadType) (contents : ℕ)
deriving DecidableEq, Repr

/-- `AuthenticatedMessage`, version 0. -/
structure AuthenticatedMessage where
  sequence : UInt64
  message : StellarMessage
  mac : HmacSha256Mac
deriving DecidableEq, Repr

/-! ## Applications -/

/-- The functions of `crypto/`. `certHash` is the hash of a certificate without its signature. -/
structure Crypto where
  getPublicKey : ℕ → NodeID
  sign : ℕ → Hash → Signature
  verifySig : NodeID → Signature → Hash → Bool
  certHash : Hash → ℕ → Curve25519Public → Hash
  EcdhDerivePublic : Curve25519Secret → Curve25519Public
  crypto_scalarmult : Curve25519Secret → Curve25519Public → ℕ
  hkdfExtract : ℕ → Curve25519Public → Curve25519Public → HmacSha256Key
  hkdfExpand : HmacSha256Key → ℕ → Nonce → Nonce → HmacSha256Key
  hmacSha256 : HmacSha256Key → UInt64 → StellarMessage → HmacSha256Mac

/-- The configuration of a node. -/
structure Application where
  crypto : Crypto
  networkID : Hash
  LEDGER_PROTOCOL_VERSION : Uint32
  OVERLAY_PROTOCOL_MIN_VERSION : Uint32
  OVERLAY_PROTOCOL_VERSION : Uint32
  VERSION_STR : String
  PEER_PORT : UInt16
  NODE_SEED : ℕ

inductive PeerRole where
  | REMOTE_CALLED_US
  | WE_CALLED_REMOTE
deriving DecidableEq, Repr

def EcdhDeriveSharedKey (crypto : Crypto) (localSecret : Curve25519Secret)
    (localPublic remotePublic : Curve25519Public) (localFirst : Bool) : HmacSha256Key :=
  let publicA := if localFirst then localPublic else remotePublic
  let publicB := if localFirst then remotePublic else localPublic
  crypto.hkdfExtract (crypto.crypto_scalarmult localSecret remotePublic) publicA publicB

/-! ## `PeerAuth` -/

structure PeerAuth where
  mECDHSecretKey : Curve25519Secret
  mECDHPublicKey : Curve25519Public
  mCert : AuthCert
  mSharedKeyCache : LruCache Curve25519Public HmacSha256Key
deriving DecidableEq

/-- Certs expire every hour, are reissued every half hour. -/
def expirationLimit : ℕ := 3600

def makeAuthCert (app : Application) (timeNow : ℕ) (pub : Curve25519Public) : AuthCert where
  pubkey := pub
  expiration := timeNow + expirationLimit
  sig := app.crypto.sign app.NODE_SEED
    (app.crypto.certHash app.networkID (timeNow + expirationLimit) pub)

namespace PeerAuth

variable (app : Application) (auth : PeerAuth)

/-- The constructor, with a random secret. -/
def create (timeNow : ℕ) (secret : Curve25519Secret) : PeerAuth where
  mECDHSecretKey := secret
  mECDHPublicKey := app.crypto.EcdhDerivePublic secret
  mCert := makeAuthCert app timeNow (app.crypto.EcdhDerivePublic secret)
  mSharedKeyCache := ⟨0xffff, []⟩

def getAuthCert (timeNow : ℕ) : AuthCert × PeerAuth :=
  let cert := if auth.mCert.expiration < timeNow + expirationLimit / 2 then
      makeAuthCert app timeNow auth.mECDHPublicKey
    else auth.mCert
  (cert, { auth with mCert := cert })

def verifyRemoteAuthCert (timeNow : ℕ) (remoteNode : NodeID) (cert : AuthCert) : Bool :=
  if cert.expiration < timeNow then false
  else
    let hash := app.crypto.certHash app.networkID cert.expiration cert.pubkey
    app.crypto.verifySig remoteNode cert.sig hash

/-- The key of a remote node, for the role in which we have it. -/
def deriveSharedKey (remotePublic : Curve25519Public) (role : PeerRole) : HmacSha256Key :=
  EcdhDeriveSharedKey app.crypto auth.mECDHSecretKey auth.mECDHPublicKey remotePublic
    (decide (role = .WE_CALLED_REMOTE))

def getSharedKey (remotePublic : Curve25519Public) (role : PeerRole) : HmacSha256Key × PeerAuth :=
  match auth.mSharedKeyCache.get? remotePublic with
  | some k => (k, { auth with mSharedKeyCache := auth.mSharedKeyCache.touch remotePublic k })
  | none =>
    let k := auth.deriveSharedKey app remotePublic role
    (k, { auth with mSharedKeyCache := auth.mSharedKeyCache.put remotePublic k })

def getSendingMacKey (remotePublic : Curve25519Public) (localNonce remoteNonce : Nonce)
    (role : PeerRole) : HmacSha256Key × PeerAuth :=
  let (k, auth) := auth.getSharedKey app remotePublic role
  match role with
  -- the sending key is K_AB, A is local and B is remote
  | .WE_CALLED_REMOTE => (app.crypto.hkdfExpand k 0 localNonce remoteNonce, auth)
  -- the sending key is K_BA, B is local and A is remote
  | .REMOTE_CALLED_US => (app.crypto.hkdfExpand k 1 localNonce remoteNonce, auth)

def getReceivingMacKey (remotePublic : Curve25519Public) (localNonce remoteNonce : Nonce)
    (role : PeerRole) : HmacSha256Key × PeerAuth :=
  let (k, auth) := auth.getSharedKey app remotePublic role
  match role with
  | .WE_CALLED_REMOTE => (app.crypto.hkdfExpand k 1 remoteNonce localNonce, auth)
  | .REMOTE_CALLED_US => (app.crypto.hkdfExpand k 0 remoteNonce localNonce, auth)

/-! ### One key for both directions -/

variable {app auth}

/-- The key that is used: what the cache has, or else what is derived. -/
theorem getSharedKey_fst (remotePublic : Curve25519Public) (role : PeerRole) :
    (auth.getSharedKey app remotePublic role).1 =
      (auth.mSharedKeyCache.get? remotePublic).getD
        (auth.deriveSharedKey app remotePublic role) := by
  unfold getSharedKey
  cases auth.mSharedKeyCache.get? remotePublic <;> rfl

/-- It is in the cache afterwards. -/
theorem getSharedKey_get? (h : 0 < auth.mSharedKeyCache.maxSize) (remotePublic : Curve25519Public)
    (role : PeerRole) :
    (auth.getSharedKey app remotePublic role).2.mSharedKeyCache.get? remotePublic =
      some (auth.getSharedKey app remotePublic role).1 := by
  unfold getSharedKey
  cases auth.mSharedKeyCache.get? remotePublic with
  | none => exact LruCache.get?_put _ h _ _
  | some k => exact LruCache.get?_touch _ _ _

/-- The keys of the node and the size of its cache never change. -/
theorem getSharedKey_keys (remotePublic : Curve25519Public) (role : PeerRole) :
    (auth.getSharedKey app remotePublic role).2.mECDHSecretKey = auth.mECDHSecretKey ∧
      (auth.getSharedKey app remotePublic role).2.mECDHPublicKey = auth.mECDHPublicKey ∧
      (auth.getSharedKey app remotePublic role).2.mCert = auth.mCert ∧
      (auth.getSharedKey app remotePublic role).2.mSharedKeyCache.maxSize =
        auth.mSharedKeyCache.maxSize := by
  unfold getSharedKey
  cases auth.mSharedKeyCache.get? remotePublic <;> exact ⟨rfl, rfl, rfl, rfl⟩

/-- The sending key of a connection, from a shared key. -/
def sendKeyOf (crypto : Crypto) (k : HmacSha256Key) (localNonce remoteNonce : Nonce) :
    PeerRole → HmacSha256Key
  | .WE_CALLED_REMOTE => crypto.hkdfExpand k 0 localNonce remoteNonce
  | .REMOTE_CALLED_US => crypto.hkdfExpand k 1 localNonce remoteNonce

/-- The receiving key of a connection, from a shared key. -/
def recvKeyOf (crypto : Crypto) (k : HmacSha256Key) (localNonce remoteNonce : Nonce) :
    PeerRole → HmacSha256Key
  | .WE_CALLED_REMOTE => crypto.hkdfExpand k 1 remoteNonce localNonce
  | .REMOTE_CALLED_US => crypto.hkdfExpand k 0 remoteNonce localNonce

theorem getSendingMacKey_eq (remotePublic : Curve25519Public) (localNonce remoteNonce : Nonce)
    (role : PeerRole) :
    auth.getSendingMacKey app remotePublic localNonce remoteNonce role =
      (sendKeyOf app.crypto (auth.getSharedKey app remotePublic role).1 localNonce remoteNonce role,
        (auth.getSharedKey app remotePublic role).2) := by
  cases role <;> rfl

theorem getReceivingMacKey_eq (remotePublic : Curve25519Public) (localNonce remoteNonce : Nonce)
    (role : PeerRole) :
    auth.getReceivingMacKey app remotePublic localNonce remoteNonce role =
      (recvKeyOf app.crypto (auth.getSharedKey app remotePublic role).1 localNonce remoteNonce role,
        (auth.getSharedKey app remotePublic role).2) := by
  cases role <;> rfl

/-- A key that was just used is found again. -/
theorem getSharedKey_again (h : 0 < auth.mSharedKeyCache.maxSize) (remotePublic : Curve25519Public)
    (role : PeerRole) :
    ((auth.getSharedKey app remotePublic role).2.getSharedKey app remotePublic role).1 =
      (auth.getSharedKey app remotePublic role).1 := by
  rw [getSharedKey_fst, getSharedKey_get? h, Option.getD_some]

end PeerAuth
end SmartCore.Overlay
