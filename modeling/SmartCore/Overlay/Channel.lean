import SmartCore.Overlay.Peer

/-!
# Authenticated channels

Once two nodes have exchanged their HELLOs, every message between them carries a sequence number and
a MAC under a key that only they know. What lies between them may drop, repeat, reorder, change and
make up messages.

**Theorem (`channel_in_order`).** If nobody else can compute a MAC, then the messages that a node
hands over with their MAC checked are the first ones that the other node has sent, in their order,
each of them once.

The invariant (`Channel`) says how the numbers of a session go with the messages that it has sealed
and handed over: the next number to expect is the number of messages handed over. It is kept by
everything that sends, drops or receives.
-/

namespace SmartCore.Overlay

/-! ## What goes over the channel -/

/-- The messages that were sent with a MAC. -/
def Peer.sealedSent (p : Peer) : List AuthenticatedMessage := p.sent.filter (·.message.isSealed)

/-- The messages that were handed over with their MAC checked. -/
def Peer.checkedHanded (p : Peer) : List StellarMessage := (p.handed.filter (·.2)).map (·.1)

/-- The messages of a list have the numbers of their places, and right MACs. -/
def Numbered (crypto : Crypto) (key : HmacSha256Key) (l : List AuthenticatedMessage) : Prop :=
  ∀ i m, l[i]? = some m →
    m.sequence = UInt64.ofNat i ∧ m.mac = crypto.hmacSha256 key m.sequence m.message

/-- What holds of a peer, if it is `trusted` that only the remote node has sealed messages under
`key`, and these are the messages `l`. -/
structure Channel (app : Application) (trusted : Prop) (key : HmacSha256Key)
    (l : List AuthenticatedMessage) (p : Peer) : Prop where
  early : p.mState.gotHello = false ∨ p.connecting = true →
    p.keyed = false ∧ p.sealedSent = [] ∧ p.checkedHanded = []
  sends : p.keyed = true → Numbered app.crypto p.mSendMacKey p.sealedSent ∧
    p.mSendMacSeq = UInt64.ofNat p.sealedSent.length
  receives : trusted → p.keyed = true → p.mRecvMacKey = key → ∃ k, k ≤ l.length ∧
    p.checkedHanded = (l.take k).map (·.message) ∧
    (p.mState ≠ .CLOSING → p.mRecvMacSeq = UInt64.ofNat k)

/-! ## Numbers -/

theorem Numbered.nil {crypto : Crypto} {key : HmacSha256Key} : Numbered crypto key [] := by
  intro i m h
  cases h

theorem Numbered.concat {crypto : Crypto} {key : HmacSha256Key} {l : List AuthenticatedMessage}
    (h : Numbered crypto key l) (msg : StellarMessage) :
    Numbered crypto key (l ++ [⟨UInt64.ofNat l.length, msg,
      crypto.hmacSha256 key (UInt64.ofNat l.length) msg⟩]) := by
  intro i m hm
  rcases Nat.lt_trichotomy i l.length with hlt | rfl | hgt
  · rw [List.getElem?_append_left hlt] at hm
    exact h i m hm
  · rw [List.getElem?_append_right le_rfl, Nat.sub_self] at hm
    cases hm
    exact ⟨rfl, rfl⟩
  · rw [List.getElem?_eq_none (by simp; omega)] at hm
    cases hm

/-- The number of a message determines its place. -/
theorem Numbered.getElem?_of_mem {crypto : Crypto} {key : HmacSha256Key}
    {l : List AuthenticatedMessage} (h : Numbered crypto key l) (hlen : l.length < 2 ^ 64)
    {m : AuthenticatedMessage} (hm : m ∈ l) {k : ℕ} (hk : k ≤ l.length)
    (hseq : m.sequence = UInt64.ofNat k) : l[k]? = some m := by
  obtain ⟨i, hi⟩ := List.getElem?_of_mem hm
  have hlt : i < l.length := (List.getElem?_eq_some_iff.mp hi).1
  have heq : UInt64.ofNat i = UInt64.ofNat k := (h i m hi).1.symm.trans hseq
  have hnat := congrArg UInt64.toNat heq
  rw [UInt64.toNat_ofNat', UInt64.toNat_ofNat', Nat.mod_eq_of_lt (by omega),
    Nat.mod_eq_of_lt (by omega)] at hnat
  rwa [← hnat]

theorem ofNat_add_one (n : ℕ) : UInt64.ofNat n + 1 = UInt64.ofNat (n + 1) := by
  rw [UInt64.ofNat_add]
  rfl

/-! ## Sending and dropping -/

namespace Peer

variable {app : Application}

theorem drop_setRecvMacSeq (p : Peer) (n : UInt64) :
    drop { p with mRecvMacSeq := n } = { p.drop with mRecvMacSeq := n } := by
  unfold drop
  split_ifs <;> rfl

theorem dropWith_setRecvMacSeq (p : Peer) (n : UInt64) (err : ErrorCode) (text : String) :
    dropWith app { p with mRecvMacSeq := n } err text =
      { p.dropWith app err text with mRecvMacSeq := n } :=
  drop_setRecvMacSeq (p.sendMessage app (.ERROR_MSG err text)) n

end Peer

namespace Channel

variable {app : Application} {trusted : Prop} {key : HmacSha256Key}
  {l : List AuthenticatedMessage} {p : Peer}
  {env : Env}

theorem create (role : PeerRole) (nonce : Nonce) :
    Channel app trusted key l (Peer.create role nonce) where
  early _ := ⟨rfl, rfl, rfl⟩
  sends h := by cases h
  receives _ h := by cases h

theorem sendMessage (h : Channel app trusted key l p) (msg : StellarMessage)
    (hmsg : msg.isSealed = true → p.mState.gotHello = true ∧ p.connecting = false) :
    Channel app trusted key l (p.sendMessage app msg) := by
  have hsent : (p.sendMessage app msg).sealedSent =
      if msg.isSealed then p.sealedSent ++ [p.sealMessage app msg] else p.sealedSent := by
    show (p.sent ++ [p.sealMessage app msg]).filter _ = _
    rw [List.filter_append]
    unfold Peer.sealMessage
    cases hs : msg.isSealed <;> simp [hs, Peer.sealedSent]
  cases hs : msg.isSealed with
  | false =>
    rw [hs] at hsent
    refine ⟨fun hearly => ?_, fun hkeyed => ?_, h.receives⟩
    · obtain ⟨hkeyed, hnil, hhanded⟩ := h.early hearly
      exact ⟨hkeyed, hsent.trans hnil, hhanded⟩
    · rw [hsent]
      obtain ⟨hnum, hseq⟩ := h.sends hkeyed
      refine ⟨hnum, ?_⟩
      show (if msg.isSealed then _ else _) = _
      rw [hs]
      exact hseq
  | true =>
    rw [hs] at hsent
    obtain ⟨hgot, hconn⟩ := hmsg hs
    refine ⟨fun hearly => ?_, fun hkeyed => ?_, h.receives⟩
    · rcases hearly with hearly | hearly
      · exact absurd (hgot.symm.trans hearly) (by simp)
      · exact absurd (hconn.symm.trans hearly) (by simp)
    · obtain ⟨hnum, hseq⟩ := h.sends hkeyed
      rw [hsent, if_pos rfl, Peer.sealMessage, if_pos hs, hseq]
      refine ⟨hnum.concat msg, ?_⟩
      show (if msg.isSealed then p.mSendMacSeq + 1 else p.mSendMacSeq) = _
      rw [if_pos hs, hseq, ofNat_add_one, List.length_append, List.length_singleton]

/-- Closing only makes less be promised. -/
theorem closing (h : Channel app trusted key l p) (listed : Bool) :
    Channel app trusted key l { p with mState := .CLOSING, listed := listed } := by
  refine ⟨fun hearly => ?_, h.sends, fun htrust hkeyed hkey => ?_⟩
  · rcases hearly with hearly | hearly
    · cases hearly
    · exact h.early (Or.inr hearly)
  · obtain ⟨k, hk, hhanded, -⟩ := h.receives htrust hkeyed hkey
    exact ⟨k, hk, hhanded, fun hne => absurd rfl hne⟩

theorem drop (h : Channel app trusted key l p) : Channel app trusted key l p.drop := by
  unfold Peer.drop
  split_ifs
  · exact h
  · exact h.closing false

theorem dropWith (h : Channel app trusted key l p) (err : ErrorCode) (text : String) :
    Channel app trusted key l (p.dropWith app err text) :=
  (h.sendMessage (.ERROR_MSG err text) (by simp [StellarMessage.isSealed])).drop

theorem sendReplies (h : Channel app trusted key l p) (hgot : p.mState.gotHello = true)
    (hconn : p.connecting = false) (replies : List (PayloadType × ℕ)) :
    Channel app trusted key l (p.sendReplies app replies) := by
  induction replies generalizing p with
  | nil => exact h
  | cons r replies ih => exact ih (h.sendMessage _ fun _ => ⟨hgot, hconn⟩) hgot hconn

/-- A peer that is dropped promises nothing about the next number. -/
theorem setRecvMacSeq (h : Channel app trusted key l p) (hclosing : p.mState = .CLOSING)
    (n : UInt64) :
    Channel app trusted key l { p with mRecvMacSeq := n } := by
  refine ⟨h.early, h.sends, fun htrust hkeyed hkey => ?_⟩
  obtain ⟨k, hk, hhanded, -⟩ := h.receives htrust hkeyed hkey
  exact ⟨k, hk, hhanded, fun hne => absurd hclosing hne⟩

/-- Reading on changes nothing that matters here. -/
theorem startRead (h : Channel app trusted key l p) : Channel app trusted key l (p.startRead env) :=
  ⟨h.early, h.sends, h.receives⟩

/-! ## Receiving -/

/-- A message without a right MAC was handed over. -/
theorem handed_unchecked (h : Channel app trusted key l p) (msg : StellarMessage) :
    Channel app trusted key l { p with handed := p.handed ++ [(msg, false)] } := by
  have hsame : Peer.checkedHanded { p with handed := p.handed ++ [(msg, false)] } =
      p.checkedHanded := by
    simp [Peer.checkedHanded]
  refine ⟨fun hearly => ?_, h.sends, fun htrust hkeyed hkey => ?_⟩
  · rw [hsame]
    exact h.early hearly
  · rw [hsame]
    exact h.receives htrust hkeyed hkey

/-- The next message of the remote node was handed over. -/
theorem handed_checked (h : Channel app trusted key l p) {m : AuthenticatedMessage}
    (hnum : trusted → Numbered app.crypto key l) (hlen : l.length < 2 ^ 64)
    (hgot : p.mState.gotHello = true) (hconn : p.connecting = false) (hstate : p.mState ≠ .CLOSING)
    (hseq : m.sequence = p.mRecvMacSeq) (hmem : trusted → p.mRecvMacKey = key → m ∈ l) :
    Channel app trusted key l { p with
      mRecvMacSeq := p.mRecvMacSeq + 1
      handed := p.handed ++ [(m.message, true)] } := by
  refine ⟨fun hearly => ?_, h.sends, fun htrust hkeyed hkey => ?_⟩
  · rcases hearly with hearly | hearly
    · exact absurd (hgot.symm.trans hearly) (by simp)
    · exact absurd (hconn.symm.trans hearly) (by simp)
  · obtain ⟨k, hk, hhanded, hnext⟩ := h.receives htrust hkeyed hkey
    have hget :=
      (hnum htrust).getElem?_of_mem hlen (hmem htrust hkey) hk (hseq.trans (hnext hstate))
    have hlt : k < l.length := (List.getElem?_eq_some_iff.mp hget).1
    refine ⟨k + 1, hlt, ?_, fun _ => ?_⟩
    · have hsame : Peer.checkedHanded { p with
          mRecvMacSeq := p.mRecvMacSeq + 1
          handed := p.handed ++ [(m.message, true)] } = p.checkedHanded ++ [m.message] := by
        simp [Peer.checkedHanded]
      rw [hsame, hhanded, List.take_add_one, hget]
      simp
    · show p.mRecvMacSeq + 1 = _
      rw [hnext hstate, ofNat_add_one]

end Channel

namespace Session

variable {app : Application} {trusted : Prop} {key : HmacSha256Key}
  {l : List AuthenticatedMessage} {env : Env}
  {s : Session}

/-- A HELLO starts the numbers over, before anything was sealed. -/
theorem recvHello_channel (h : Channel app trusted key l s.peer) (hconn : s.peer.connecting = false)
    (elo : Hello) : Channel app trusted key l (s.recvHello app env elo).peer := by
  unfold recvHello
  by_cases hgot : s.peer.mState.gotHello = true
  · rw [if_pos hgot]
    exact h.drop
  rw [if_neg hgot]
  by_cases hcert : PeerAuth.verifyRemoteAuthCert app env.timeNow elo.peerID elo.cert = false
  · rw [if_pos hcert]
    exact h.drop
  rw [if_neg hcert]
  obtain ⟨-, hnil, hhanded⟩ := h.early (Or.inl (by simpa using hgot))
  have haccepted : Channel app trusted key l (s.acceptHello app elo).peer := by
    refine ⟨fun hearly => ?_, fun _ => ?_, fun _ _ _ => ⟨0, Nat.zero_le _, hhanded, fun _ => rfl⟩⟩
    · rcases hearly with hearly | hearly
      · cases hearly
      · exact absurd (hconn.symm.trans hearly) (by simp)
    · show Numbered app.crypto _ s.peer.sealedSent ∧ 0 = UInt64.ofNat s.peer.sealedSent.length
      rw [hnil]
      exact ⟨Numbered.nil, rfl⟩
  -- the peer before the last checks
  obtain ⟨t, ht⟩ : ∃ t, t = if (s.acceptHello app elo).peer.mRole = .REMOTE_CALLED_US then
      (s.acceptHello app elo).sendHello app env else s.acceptHello app elo := ⟨_, rfl⟩
  have htc : Channel app trusted key l t.peer ∧ t.peer.mState = .GOT_HELLO ∧
      t.peer.connecting = false := by
    rw [ht]
    split_ifs
    · exact ⟨haccepted.sendMessage _ (by simp [StellarMessage.isSealed]), rfl, hconn⟩
    · exact ⟨haccepted, rfl, hconn⟩
  obtain ⟨hchannel, hstate, hconn'⟩ := htc
  simp only
  rw [← ht]
  unfold checkHello
  split_ifs
  · exact hchannel.dropWith _ _
  · exact hchannel.dropWith _ _
  · exact hchannel.dropWith _ _
  · exact hchannel.dropWith _ _
  · exact hchannel.dropWith _ _
  · exact hchannel.sendMessage _ fun _ => ⟨by rw [hstate]; rfl, hconn'⟩
  · exact hchannel

theorem recvAuth_channel (h : Channel app trusted key l s.peer) (hconn : s.peer.connecting = false)
    (hstate : s.peer.mState ≠ .CLOSING) : Channel app trusted key l (s.recvAuth app env) := by
  simp only [recvAuth]
  by_cases hauth : s.peer.isAuthenticated = true
  · rw [if_pos hauth]
    exact h.dropWith _ _
  rw [if_neg hauth]
  have hgot : Channel app trusted key l { s.peer with mState := .GOT_AUTH } := by
    refine ⟨fun hearly => ?_, h.sends, fun htrust hkeyed hkey => ?_⟩
    · rcases hearly with hearly | hearly
      · cases hearly
      · exact absurd (hconn.symm.trans hearly) (by simp)
    · obtain ⟨k, hk, hhanded, hnext⟩ := h.receives htrust hkeyed hkey
      exact ⟨k, hk, hhanded, fun _ => hnext hstate⟩
  split_ifs
  · exact hgot.dropWith _ _
  · exact (hgot.sendMessage _ fun _ => ⟨rfl, hconn⟩).sendReplies rfl hconn _
  · exact hgot.sendReplies rfl hconn _

/-- `hhanded` is what the peer becomes when the message is handed over. -/
theorem recvStellarMessage_channel {checked : Bool} {msg : StellarMessage}
    (hhanded : Channel app trusted key l
      { s.peer with handed := s.peer.handed ++ [(msg, checked)] })
    (hdrop : Channel app trusted key l s.peer.drop) (hconn : s.peer.connecting = false)
    (habort : s.peer.shouldAbort env = false) :
    Channel app trusted key l (s.recvStellarMessage app env checked msg).peer := by
  have hstate : s.peer.mState ≠ .CLOSING := by
    intro hclosing
    simp [Peer.shouldAbort, hclosing] at habort
  simp only [recvStellarMessage]
  rw [if_neg (by simp [habort])]
  cases msg with
  | ERROR_MSG code text => exact hhanded.drop
  | HELLO elo =>
    exact recvHello_channel (s := { s with
      peer := { s.peer with handed := s.peer.handed ++ [(.HELLO elo, checked)] } })
      hhanded hconn elo
  | AUTH unused =>
    exact recvAuth_channel (s := { s with
      peer := { s.peer with handed := s.peer.handed ++ [(.AUTH unused, checked)] } }) hhanded hconn
      hstate
  | payload type contents =>
    simp only
    by_cases hauth : s.peer.isAuthenticated = false
    · rw [if_pos hauth]
      exact hdrop
    · rw [if_neg hauth]
      have hgot : s.peer.mState = .GOT_AUTH := of_decide_eq_true (Bool.not_eq_false _ ▸ hauth)
      exact hhanded.sendReplies (by rw [hgot]; rfl) hconn _

/-- Any message, if a message with a right MAC is one of the remote node's. -/
theorem recvMessage_channel {msg : AuthenticatedMessage} (h : Channel app trusted key l s.peer)
    (hnum : trusted → Numbered app.crypto key l) (hlen : l.length < 2 ^ 64)
    (hconn : s.peer.connecting = false)
    (hmem : trusted → msg.mac = app.crypto.hmacSha256 key msg.sequence msg.message → msg ∈ l) :
    Channel app trusted key l (s.recvMessage app env msg).peer := by
  unfold recvMessage
  by_cases habort : s.peer.shouldAbort env = true
  · rw [if_pos habort]
    exact h
  rw [if_neg habort]
  have hfalse : s.peer.shouldAbort env = false := by simpa using habort
  have hstate : s.peer.mState ≠ .CLOSING := by
    intro hclosing
    simp [Peer.shouldAbort, hclosing] at hfalse
  by_cases hchecked : (s.peer.mState.gotHello && !msg.message.isError) = true
  · rw [if_pos hchecked]
    have hgot : s.peer.mState.gotHello = true := (Bool.and_eq_true_iff.mp hchecked).1
    have hdropWith : ∀ text, Channel app trusted key l
        ((s.setRecvMacSeq (s.peer.mRecvMacSeq + 1)).peer.dropWith app .ERR_AUTH text) := by
      intro text
      rw [setRecvMacSeq, Peer.dropWith_setRecvMacSeq]
      exact (h.dropWith .ERR_AUTH text).setRecvMacSeq (Peer.dropWith_mState _ _ _) _
    split_ifs with hseq hmac
    · exact hdropWith _
    · exact hdropWith _
    · refine recvStellarMessage_channel (s := s.setRecvMacSeq (s.peer.mRecvMacSeq + 1)) ?_ ?_ hconn
        hfalse
      · refine h.handed_checked hnum hlen hgot hconn hstate (not_not.mp hseq)
          fun htrust hkey => hmem htrust ?_
        rw [← hkey]
        exact not_not.mp hmac
      · rw [setRecvMacSeq, Peer.drop_setRecvMacSeq]
        exact h.drop.setRecvMacSeq (Peer.drop_mState _) _
  · rw [if_neg hchecked]
    exact recvStellarMessage_channel (h.handed_unchecked _) h.drop hconn hfalse

/-! ## Runs -/

theorem step_channel (h : Channel app trusted key l s.peer) (hwaiting : s.Waiting) (e : Event)
    (hnum : trusted → Numbered app.crypto key l) (hlen : l.length < 2 ^ 64)
    (hmem : trusted → ∀ msg env, e = .recvMessage msg env →
      msg.mac = app.crypto.hmacSha256 key msg.sequence msg.message → msg ∈ l) :
    Channel app trusted key l (s.step app e).peer := by
  have hreading : s.peer.reading = true → s.peer.connecting = false := by
    intro hr
    by_contra hc
    rw [(hwaiting (by simpa using hc)).1] at hr
    cases hr
  cases e with
  | connectHandler error env =>
    simp only [step]
    split_ifs with hconn
    · -- nothing was received or sealed yet
      obtain ⟨hkeyed, hnil, hhanded⟩ := h.early (Or.inr hconn)
      have hfresh (state : PeerState) (reading : Bool) : Channel app trusted key l
          { s.peer with connecting := false, mState := state, reading := reading } :=
        ⟨fun _ => ⟨hkeyed, hnil, hhanded⟩, fun h => absurd (hkeyed.symm.trans h) (by simp),
          fun _ h => absurd (hkeyed.symm.trans h) (by simp)⟩
      cases error with
      | true => exact (hfresh s.peer.mState s.peer.reading).drop
      | false => exact (hfresh .CONNECTED _).sendMessage _ (by simp [StellarMessage.isSealed])
    · exact h
  | recvMessage msg env =>
    simp only [step]
    split_ifs with hread
    · exact (recvMessage_channel h hnum hlen (hreading hread) fun htrust =>
        hmem htrust msg env rfl).startRead
    · exact h
  | recvCorrupt env =>
    simp only [step]
    split_ifs with hread
    · exact (h.dropWith _ _).startRead
    · exact h
  | drop => exact h.drop
  | shutdown => exact h.dropWith _ _
  | evict => exact ⟨h.early, h.sends, h.receives⟩
  | send type contents =>
    simp only [step]
    split_ifs with hauth
    · have hgot : s.peer.mState = .GOT_AUTH := of_decide_eq_true hauth
      refine h.sendMessage _ fun _ => ⟨by rw [hgot]; rfl, ?_⟩
      by_contra hc
      have hstate := (hwaiting (by simpa using hc)).2
      simp [hgot] at hstate
    · exact h
  | getSharedKey remotePublic role => exact h

end Session

section Runs

variable {app : Application} {trusted : Prop} {key : HmacSha256Key} {l : List AuthenticatedMessage}

theorem channel_run (role : PeerRole) (nonce : Nonce) (peerAuth : PeerAuth) (es : List Event)
    (hnum : trusted → Numbered app.crypto key l) (hlen : l.length < 2 ^ 64)
    (hmem : trusted → ∀ msg env, .recvMessage msg env ∈ es →
      msg.mac = app.crypto.hmacSha256 key msg.sequence msg.message → msg ∈ l) :
    Channel app trusted key l (Session.run app ⟨Peer.create role nonce, peerAuth⟩ es).peer := by
  induction es using List.reverseRecOn with
  | nil => exact Channel.create role nonce
  | append_singleton es e ih =>
    rw [Session.run_snoc]
    refine Session.step_channel (ih fun htrust msg env h => hmem htrust msg env (by simp [h]))
      (waiting_run (Session.Waiting.create role nonce peerAuth) es) e hnum hlen ?_
    intro htrust msg env heq
    exact hmem htrust msg env (by simp [heq])

/-- **The channel keeps the order.** Two nodes have each got the other's HELLO, so that the one
seals messages under the key under which the other one checks them, and nobody else seals messages
under this key. Whatever else the one receives, the messages that it hands over with their MAC
checked are the first ones that the other one has sealed, in order. -/
theorem channel_in_order (app app' : Application) (hcrypto : app'.crypto = app.crypto)
    (role role' : PeerRole) (nonce nonce' : Nonce) (auth auth' : PeerAuth) (es es' : List Event)
    (p p' : Peer) (hp : (Session.run app ⟨Peer.create role nonce, auth⟩ es).peer = p)
    (hp' : (Session.run app' ⟨Peer.create role' nonce', auth'⟩ es').peer = p')
    (hkeyed : p.keyed = true) (hkeyed' : p'.keyed = true) (hkey : p'.mSendMacKey = p.mRecvMacKey)
    (hunforged : ∀ msg env, .recvMessage msg env ∈ es →
      msg.mac = app.crypto.hmacSha256 p.mRecvMacKey msg.sequence msg.message → msg ∈ p'.sealedSent)
    (hlen : p'.sealedSent.length < 2 ^ 64) :
    p.checkedHanded <+: p'.sealedSent.map (·.message) := by
  have hsender : Channel app' False 0 [] p' := by
    rw [← hp']
    exact channel_run role' nonce' auth' es' (fun h => h.elim) (by simp) fun h => h.elim
  have hnum : Numbered app.crypto p.mRecvMacKey p'.sealedSent := by
    rw [← hkey, ← hcrypto]
    exact (hsender.sends hkeyed').1
  have hreceiver : Channel app True p.mRecvMacKey p'.sealedSent p := by
    rw [← hp]
    refine channel_run role nonce auth es (fun _ => ?_) hlen fun _ => ?_
    · rw [hp]
      exact hnum
    · rw [hp]
      exact hunforged
  obtain ⟨k, -, hhanded, -⟩ := hreceiver.receives trivial hkeyed rfl
  rw [hhanded]
  exact (List.take_prefix k _).map _

end Runs

/-! ## A replayed message -/

/-- The `i`-th message that the peer has sent. -/
def Session.sentAt (s : Session) (i : ℕ) : AuthenticatedMessage :=
  s.peer.sent.getD i ⟨0, .AUTH 0, 0⟩

def toyCaller (es : List Event) : Session :=
  Session.run (toyApp 1) ⟨Peer.create .WE_CALLED_REMOTE 0, PeerAuth.create (toyApp 1) 0 3⟩ es

def toyCalled (es : List Event) : Session :=
  Session.run (toyApp 2) ⟨Peer.create .REMOTE_CALLED_US 7, PeerAuth.create (toyApp 2) 0 5⟩ es

/-- The handshake, as either node sees it. -/
def toyHandshake : List Event × List Event :=
  let caller := [Event.connectHandler false {}]
  let called := [Event.recvMessage ((toyCaller caller).sentAt 0) {}]
  let caller := caller ++ [.recvMessage ((toyCalled called).sentAt 0) {}]
  let called := called ++ [.recvMessage ((toyCaller caller).sentAt 1) {}]
  (caller ++ [.recvMessage ((toyCalled called).sentAt 1) {}], called)

/-- Then the caller sends two messages. -/
def toySender : List Event :=
  toyHandshake.1 ++ [.send .TRANSACTION 1, .send .TRANSACTION 2]

/-- The first one arrives twice, and the second one after it. -/
def toyReceiver : List Event :=
  toyHandshake.2 ++ [.recvMessage ((toyCaller toySender).sentAt 2) {},
    .recvMessage ((toyCaller toySender).sentAt 2) {},
    .recvMessage ((toyCaller toySender).sentAt 3) {}]

/-- Is the message that arrives one of `l`, if it has a right MAC? -/
def Event.genuine (crypto : Crypto) (key : HmacSha256Key) (l : List AuthenticatedMessage) :
    Event → Bool
  | .recvMessage msg _ =>
    decide (msg.mac = crypto.hmacSha256 key msg.sequence msg.message → msg ∈ l)
  | _ => true

theorem channel_in_order_toyReceiver :
    (toyCalled toyReceiver).peer.checkedHanded = [.AUTH 0, .payload .TRANSACTION 1] ∧
    (toyCalled toyReceiver).peer.checkedHanded <+:
      (toyCaller toySender).peer.sealedSent.map (·.message) := by
  refine ⟨by decide +kernel, ?_⟩
  refine channel_in_order (toyApp 2) (toyApp 1) rfl .REMOTE_CALLED_US .WE_CALLED_REMOTE 7 0
    (PeerAuth.create (toyApp 2) 0 5) (PeerAuth.create (toyApp 1) 0 3) toyReceiver toySender _ _
    rfl rfl (by decide +kernel) (by decide +kernel) (by decide +kernel) ?_ (by decide +kernel)
  have hall : ∀ e ∈ toyReceiver, e.genuine toyCrypto (toyCalled toyReceiver).peer.mRecvMacKey
      (toyCaller toySender).peer.sealedSent = true := by decide +kernel
  intro msg env hmem
  exact of_decide_eq_true (hall _ hmem)

end SmartCore.Overlay
