import SmartCore.Lib.Records
import SmartCore.Overlay.TCPPeer
import SmartCore.Util.XDRStream

/-!
# Incoming messages

A peer reads four bytes, the size of a message, and then the message. It asks its socket for so many
bytes at a time, and the socket calls back when they have arrived. Meanwhile the peer may be dropped
or authenticated, and the overlay may shut down.

* The messages that the peer takes are the records at the beginning of the stream, whatever the
  pieces are in which the stream arrives (`taken_run`).
* A peer that is not authenticated is never made to hold more than 4096 bytes (`bounded_run`).
* What the other end has written arrives in order (`delivered_in_order`): this goes together with
  the way outgoing messages are written.
-/

namespace SmartCore.Overlay.Incoming

open Util (recordSize lengthWord)

/-! ## The code -/

def MAX_UNAUTH_MESSAGE_SIZE : ℕ := 0x1000

def MAX_MESSAGE_SIZE : ℕ := 0x1000000

/-- What the outstanding read fills. -/
inductive Read where
  | header
  | body
deriving DecidableEq

/-- The vector of the first `n` bytes of `bytes`, with zeros where there are fewer. -/
def resize (bytes : List UInt8) (n : ℕ) : List UInt8 :=
  bytes.take n ++ List.replicate (n - bytes.length) 0

@[simp]
theorem length_resize (bytes : List UInt8) (n : ℕ) : (resize bytes n).length = n := by
  rw [resize, List.length_append, List.length_take, List.length_replicate]
  omega

/-- The incoming side of a peer, and the bytes that have arrived at its socket. No code reads
`taken`, the messages that went to `recvMessage`, and `asserted`, whether an assertion has failed.
-/
structure TCPPeer where
  mState : PeerState := .CONNECTED
  isShuttingDown : Bool := false
  mIncomingHeader : List UInt8 := []
  mIncomingBody : List UInt8 := []
  outstanding : Option Read := none
  socket : List UInt8 := []
  taken : List (List UInt8) := []
  asserted : Bool := false

namespace TCPPeer

variable (p : TCPPeer)

def isAuthenticated : Bool := decide (p.mState = .GOT_AUTH)

def shouldAbort : Bool := decide (p.mState = .CLOSING) || p.isShuttingDown

def drop : TCPPeer := { p with mState := .CLOSING }

def startRead : TCPPeer :=
  if p.shouldAbort then p
  else if p.mIncomingHeader.length ≠ 0 then { p with asserted := true }
  else { p with mIncomingHeader := resize p.mIncomingHeader 4, outstanding := some .header }

/-- The size of the message, with the 'continuation' bit cleared. -/
def headerSize : List UInt8 → ℕ
  | [b₀, b₁, b₂, b₃] => recordSize b₀ b₁ b₂ b₃
  | _ => 0

/-- `0`, where the size is unacceptable. -/
def getIncomingMsgLength : ℕ × TCPPeer :=
  let length := headerSize p.mIncomingHeader
  if length ≤ 0 ∨ (p.isAuthenticated = false ∧ MAX_UNAUTH_MESSAGE_SIZE < length) ∨
      MAX_MESSAGE_SIZE < length then (0, p.drop)
  else (length, p)

def readHeaderHandler (error : Bool) : TCPPeer :=
  if error then p.drop
  else
    let (length, p) := p.getIncomingMsgLength
    if length ≠ 0 then
      { p with mIncomingBody := resize p.mIncomingBody length, outstanding := some .body }
    else p

/-- A header is refused, or room is made for its message. -/
theorem readHeaderHandler_cases : p.readHeaderHandler false = p.drop ∨
    (0 < headerSize p.mIncomingHeader ∧
      (p.isAuthenticated = false → headerSize p.mIncomingHeader ≤ MAX_UNAUTH_MESSAGE_SIZE) ∧
      headerSize p.mIncomingHeader ≤ MAX_MESSAGE_SIZE ∧
      p.readHeaderHandler false = { p with
        mIncomingBody := resize p.mIncomingBody (headerSize p.mIncomingHeader)
        outstanding := some .body }) := by
  unfold readHeaderHandler getIncomingMsgLength
  simp only [Bool.false_eq_true, if_false]
  by_cases hbad : headerSize p.mIncomingHeader ≤ 0 ∨
      (p.isAuthenticated = false ∧ MAX_UNAUTH_MESSAGE_SIZE < headerSize p.mIncomingHeader) ∨
      MAX_MESSAGE_SIZE < headerSize p.mIncomingHeader
  · rw [if_pos hbad]
    exact Or.inl rfl
  · rw [if_neg hbad]
    rw [not_or, not_or, not_and] at hbad
    obtain ⟨hpos, hunauth, hmax⟩ := hbad
    refine Or.inr ⟨by omega, fun h => not_lt.mp (hunauth h), by omega, ?_⟩
    simp only
    rw [if_pos (by omega)]

/-- `recvMessage` leaves the peer in the state `mState`. -/
def readBodyHandler (error : Bool) (mState : PeerState) : TCPPeer :=
  if error then p.drop
  else
    let p := { p with taken := p.taken ++ [p.mIncomingBody], mState := mState }
    startRead { p with mIncomingHeader := [] }

end TCPPeer

/-! ## Runs -/

/-- What happens: bytes arrive, the outstanding read completes (if enough bytes have arrived) or
fails, or the state of the peer or of the overlay changes. -/
inductive Event where
  | arrive (bytes : List UInt8)
  | complete (mState : PeerState)
  | fail
  | setState (mState : PeerState)
  | shutdown

/-- The socket has filled the buffer of the outstanding read. -/
def TCPPeer.complete (p : TCPPeer) (mState : PeerState) : TCPPeer :=
  match p.outstanding with
  | some .header =>
    let n := p.mIncomingHeader.length
    if n ≤ p.socket.length then
      { p with
        mIncomingHeader := p.socket.take n
        socket := p.socket.drop n
        outstanding := none }.readHeaderHandler false
    else p
  | some .body =>
    let n := p.mIncomingBody.length
    if n ≤ p.socket.length then
      { p with
        mIncomingBody := p.socket.take n
        socket := p.socket.drop n
        outstanding := none }.readBodyHandler false mState
    else p
  | none => p

def step (p : TCPPeer) : Event → TCPPeer
  | .arrive bytes => { p with socket := p.socket ++ bytes }
  | .complete mState => p.complete mState
  | .fail =>
    match p.outstanding with
    | some .header => { p with outstanding := none }.readHeaderHandler true
    | some .body => { p with outstanding := none }.readBodyHandler true .CLOSING
    | none => p
  | .setState mState => { p with mState := mState }
  | .shutdown => { p with isShuttingDown := true }

/-- A peer whose connection is there. -/
def TCPPeer.connected : TCPPeer := ({} : TCPPeer).startRead

def run (events : List Event) : TCPPeer := events.foldl step .connected

/-- The bytes that arrive. -/
def Event.bytes : Event → List UInt8
  | .arrive bytes => bytes
  | _ => []

/-- All that has arrived. -/
def arrived (events : List Event) : List UInt8 := events.flatMap Event.bytes

/-- The records that a peer accepts. -/
def format : RecordFormat UInt8 where
  headerLength := 4
  headerLength_pos := by decide
  size header :=
    let length := TCPPeer.headerSize header
    if length ≤ 0 ∨ MAX_MESSAGE_SIZE < length then none else some length

/-! ## What is taken -/

section Taken

variable {p : TCPPeer} {stream rest : List UInt8}

/-- What the outstanding read leaves to be read. -/
def Pending (p : TCPPeer) (rest : List UInt8) : Prop :=
  match p.outstanding with
  | some .header => p.mIncomingHeader.length = 4 ∧ rest = p.socket
  | some .body => p.mIncomingHeader.length = 4 ∧ rest = p.mIncomingHeader ++ p.socket ∧
      format.size p.mIncomingHeader = some p.mIncomingBody.length
  | none => True

/-- What was taken are records of the stream, and the next read begins where they end. -/
structure Takes (stream : List UInt8) (p : TCPPeer) : Prop where
  asserted : p.asserted = false
  reads : ∃ rest, format.Reads stream p.taken rest ∧ Pending p rest

theorem Takes.startRead (hasserted : p.asserted = false) (hheader : p.mIncomingHeader = [])
    (hnone : p.outstanding = none) (h : format.Reads stream p.taken p.socket) :
    Takes stream p.startRead := by
  unfold TCPPeer.startRead
  by_cases habort : p.shouldAbort = true
  · rw [if_pos habort]
    refine ⟨hasserted, _, h, ?_⟩
    rw [Pending, hnone]
    trivial
  · rw [if_neg habort, if_neg (by simp [hheader])]
    exact ⟨hasserted, _, h, length_resize _ _, rfl⟩

theorem takes_connected : Takes [] .connected := Takes.startRead rfl rfl rfl (.nil [])

theorem Takes.dropped (h : Takes stream p) (mState : PeerState) :
    Takes stream { p with mState := mState, outstanding := none } := by
  obtain ⟨rest, hreads, -⟩ := h.reads
  exact ⟨h.asserted, rest, hreads, trivial⟩

theorem Takes.arrive (h : Takes stream p) (bytes : List UInt8) :
    Takes (stream ++ bytes) (step p (.arrive bytes)) := by
  obtain ⟨rest, hreads, hpending⟩ := h.reads
  refine ⟨h.asserted, rest ++ bytes, hreads.append bytes, ?_⟩
  have hsame : (step p (.arrive bytes)).outstanding = p.outstanding := rfl
  rw [Pending] at hpending ⊢
  rw [hsame]
  cases hout : p.outstanding with
  | none => trivial
  | some read =>
    rw [hout] at hpending
    cases read with
    | header =>
      obtain ⟨hfour, rfl⟩ := hpending
      exact ⟨hfour, rfl⟩
    | body =>
      obtain ⟨hfour, rfl, hsize⟩ := hpending
      exact ⟨hfour, List.append_assoc _ _ _, hsize⟩

/-- A header has arrived. -/
theorem Takes.header (h : Takes stream p) (hout : p.outstanding = some .header)
    (hlen : p.mIncomingHeader.length ≤ p.socket.length) (mState : PeerState) :
    Takes stream (p.complete mState) := by
  obtain ⟨rest, hreads, hpending⟩ := h.reads
  rw [Pending, hout] at hpending
  obtain ⟨hfour, rfl⟩ := hpending
  rw [hfour] at hlen
  simp only [TCPPeer.complete, hout, hfour, if_pos hlen]
  rcases TCPPeer.readHeaderHandler_cases
    { p with
      mIncomingHeader := p.socket.take 4
      socket := p.socket.drop 4
      outstanding := none } with heq | ⟨hpos, -, hmax, heq⟩
  · rw [heq]
    exact ⟨h.asserted, _, hreads, trivial⟩
  · rw [heq]
    refine ⟨h.asserted, _, hreads, ?_, (List.take_append_drop 4 p.socket).symm, ?_⟩
    · simp [hlen]
    · show (if _ then none else _) = _
      rw [if_neg (by simp only [] at hpos hmax ⊢; omega), length_resize]

/-- A body has arrived. -/
theorem Takes.body (h : Takes stream p) (hout : p.outstanding = some .body)
    (hlen : p.mIncomingBody.length ≤ p.socket.length) (mState : PeerState) :
    Takes stream (p.complete mState) := by
  obtain ⟨rest, hreads, hpending⟩ := h.reads
  rw [Pending, hout] at hpending
  obtain ⟨hfour, rfl, hsize⟩ := hpending
  simp only [TCPPeer.complete, hout, if_pos hlen, TCPPeer.readBodyHandler, Bool.false_eq_true,
    if_false]
  refine Takes.startRead h.asserted rfl rfl (.concat hreads ?_)
  refine RecordFormat.record_eq_some.mpr ⟨p.mIncomingHeader, ?_, hfour, ?_⟩
  · rw [List.take_append_drop]
  · rw [hsize, List.length_take, Nat.min_eq_left hlen]

theorem Takes.step (h : Takes stream p) (e : Event) :
    Takes (stream ++ arrived [e]) (Incoming.step p e) := by
  cases e with
  | arrive bytes =>
    have heq : arrived [.arrive bytes] = bytes := List.append_nil _
    rw [heq]
    exact h.arrive bytes
  | complete mState =>
    rw [show arrived [.complete mState] = [] from rfl, List.append_nil]
    show Takes stream (p.complete mState)
    cases hout : p.outstanding with
    | none =>
      simp only [TCPPeer.complete, hout]
      exact h
    | some read =>
      cases read with
      | header =>
        by_cases hlen : p.mIncomingHeader.length ≤ p.socket.length
        · exact h.header hout hlen mState
        · simp only [TCPPeer.complete, hout, if_neg hlen]
          exact h
      | body =>
        by_cases hlen : p.mIncomingBody.length ≤ p.socket.length
        · exact h.body hout hlen mState
        · simp only [TCPPeer.complete, hout, if_neg hlen]
          exact h
  | fail =>
    rw [show arrived [.fail] = [] from rfl, List.append_nil]
    simp only [Incoming.step]
    cases hout : p.outstanding with
    | none => exact h
    | some read =>
      cases read with
      | header => exact h.dropped .CLOSING
      | body => exact h.dropped .CLOSING
  | setState mState =>
    rw [show arrived [.setState mState] = [] from rfl, List.append_nil]
    exact ⟨h.asserted, h.reads⟩
  | shutdown =>
    rw [show arrived [.shutdown] = [] from rfl, List.append_nil]
    exact ⟨h.asserted, h.reads⟩

theorem takes_run (events : List Event) : Takes (arrived events) (run events) := by
  induction events using List.reverseRecOn with
  | nil => exact takes_connected
  | append_singleton events e ih =>
    rw [run, List.foldl_append, arrived, List.flatMap_append]
    exact ih.step e

/-- The outstanding read has not got all its bytes. -/
def Waits (p : TCPPeer) : Prop :=
  (p.outstanding = some .header ∧ p.socket.length < p.mIncomingHeader.length) ∨
    (p.outstanding = some .body ∧ p.socket.length < p.mIncomingBody.length)

/-- A peer that waits has taken all the records that there are. -/
theorem Pending.record_eq_none (h : Pending p rest) (hwaits : Waits p) :
    format.record rest = none := by
  cases hr : format.record rest with
  | none => rfl
  | some r =>
    exfalso
    obtain ⟨header, heq, hlen, hsize⟩ := RecordFormat.record_eq_some.mp hr
    have hfour : header.length = 4 := hlen
    rcases hwaits with ⟨hout, hshort⟩ | ⟨hout, hshort⟩
    · rw [Pending, hout] at h
      obtain ⟨hfour', rfl⟩ := h
      have hlength := congrArg List.length heq
      simp only [List.length_append] at hlength
      omega
    · rw [Pending, hout] at h
      obtain ⟨hfour', rfl, hsize'⟩ := h
      obtain ⟨rfl, hsocket⟩ := List.append_inj heq (by rw [hfour, hfour'])
      have hlength := congrArg List.length hsocket
      rw [hsize'] at hsize
      have hbody := Option.some.inj hsize
      simp only [List.length_append] at hlength
      omega

end Taken

/-- **The pieces do not matter.** In every run the messages that the peer takes are the first
records of the stream, and no assertion fails. When it waits for more, it has taken all the complete
ones. -/
theorem taken_run (events : List Event) :
    (run events).asserted = false ∧
    (run events).taken <+: format.records (arrived events) ∧
    (Waits (run events) → (run events).taken = format.records (arrived events)) := by
  have h := takes_run events
  obtain ⟨rest, hreads, hpending⟩ := h.reads
  rw [hreads.records_eq]
  refine ⟨h.asserted, List.prefix_append _ _, fun hwaits => ?_⟩
  rw [RecordFormat.records_of_none (hpending.record_eq_none hwaits), List.append_nil]

/-! ## How much is held -/

/-- The event does not make the peer authenticated. -/
def Event.Unauthenticated : Event → Prop
  | .complete mState => mState ≠ .GOT_AUTH
  | .setState mState => mState ≠ .GOT_AUTH
  | _ => True

/-- The peer holds at most `bound` bytes of a message, and has taken no longer one. -/
structure Bounded (bound : ℕ) (p : TCPPeer) : Prop where
  body : p.mIncomingBody.length ≤ bound
  taken : ∀ body ∈ p.taken, body.length ≤ bound

section Bounds

variable {bound : ℕ} {p : TCPPeer}

theorem Bounded.startRead (h : Bounded bound p) : Bounded bound p.startRead := by
  unfold TCPPeer.startRead
  split_ifs
  · exact h
  · exact ⟨h.body, h.taken⟩
  · exact ⟨h.body, h.taken⟩

/-- Room is made for what a header asks for, if that is not too much. -/
theorem Bounded.readHeaderHandler (h : Bounded bound p)
    (hbound : MAX_MESSAGE_SIZE ≤ bound ∨
      p.isAuthenticated = false ∧ MAX_UNAUTH_MESSAGE_SIZE ≤ bound) :
    Bounded bound (p.readHeaderHandler false) := by
  rcases p.readHeaderHandler_cases with heq | ⟨-, hunauth, hmax, heq⟩
  · rw [heq]
    exact ⟨h.body, h.taken⟩
  · rw [heq]
    refine ⟨?_, h.taken⟩
    rw [length_resize]
    rcases hbound with hle | ⟨hauth, hle⟩
    · exact hmax.trans hle
    · exact (hunauth hauth).trans hle

theorem Bounded.complete (h : Bounded bound p)
    (hbound : MAX_MESSAGE_SIZE ≤ bound ∨
      p.isAuthenticated = false ∧ MAX_UNAUTH_MESSAGE_SIZE ≤ bound) (mState : PeerState) :
    Bounded bound (p.complete mState) := by
  unfold TCPPeer.complete
  cases p.outstanding with
  | none => exact h
  | some read =>
    cases read with
    | header =>
      simp only
      split_ifs
      · exact Bounded.readHeaderHandler ⟨h.body, h.taken⟩ hbound
      · exact h
    | body =>
      simp only
      split_ifs with hlen
      · have htake : (p.socket.take p.mIncomingBody.length).length ≤ bound := by
          rw [List.length_take, Nat.min_eq_left hlen]
          exact h.body
        refine Bounded.startRead ⟨htake, fun body hmem => ?_⟩
        rcases List.mem_append.mp hmem with hmem | hmem
        · exact h.taken body hmem
        · rw [List.mem_singleton.mp hmem]
          exact htake
      · exact h

theorem Bounded.step (h : Bounded bound p)
    (hbound : MAX_MESSAGE_SIZE ≤ bound ∨
      p.isAuthenticated = false ∧ MAX_UNAUTH_MESSAGE_SIZE ≤ bound) (e : Event) :
    Bounded bound (Incoming.step p e) := by
  cases e with
  | arrive bytes => exact ⟨h.body, h.taken⟩
  | complete mState => exact h.complete hbound mState
  | fail =>
    simp only [Incoming.step]
    cases p.outstanding with
    | none => exact h
    | some read => cases read <;> exact ⟨h.body, h.taken⟩
  | setState mState => exact ⟨h.body, h.taken⟩
  | shutdown => exact ⟨h.body, h.taken⟩

theorem startRead_mState (p : TCPPeer) : p.startRead.mState = p.mState := by
  unfold TCPPeer.startRead
  split_ifs <;> rfl

theorem isAuthenticated_step {e : Event} (he : e.Unauthenticated) (h : p.isAuthenticated = false) :
    (Incoming.step p e).isAuthenticated = false := by
  have hne : p.mState ≠ .GOT_AUTH := of_decide_eq_false h
  refine decide_eq_false ?_
  cases e with
  | arrive bytes => exact hne
  | complete mState =>
    show (p.complete mState).mState ≠ _
    unfold TCPPeer.complete
    cases p.outstanding with
    | none => exact hne
    | some read =>
      cases read with
      | header =>
        simp only
        split_ifs
        · rcases TCPPeer.readHeaderHandler_cases
            { p with
              mIncomingHeader := p.socket.take p.mIncomingHeader.length
              socket := p.socket.drop p.mIncomingHeader.length
              outstanding := none } with heq | ⟨-, -, -, heq⟩
          · rw [heq]
            simp [TCPPeer.drop]
          · rw [heq]
            exact hne
        · exact hne
      | body =>
        simp only
        split_ifs
        · rw [TCPPeer.readBodyHandler, if_neg (by simp), startRead_mState]
          exact he
        · exact hne
  | fail =>
    simp only [Incoming.step]
    cases p.outstanding with
    | none => exact hne
    | some read =>
      cases read with
      | header => simp [TCPPeer.readHeaderHandler, TCPPeer.drop]
      | body => simp [TCPPeer.readBodyHandler, TCPPeer.drop]
  | setState mState => exact he
  | shutdown => exact hne

end Bounds

theorem bounded_connected (bound : ℕ) : Bounded bound .connected :=
  Bounded.startRead ⟨Nat.zero_le _, by simp⟩

/-- **No peer makes the node hold more than it accepts.** In every run a peer holds at most 16 MiB
of a message, and takes none that is longer; as long as it has not been authenticated, 4 KiB. -/
theorem bounded_run (events : List Event) :
    Bounded MAX_MESSAGE_SIZE (run events) ∧
    ((∀ e ∈ events, e.Unauthenticated) → Bounded MAX_UNAUTH_MESSAGE_SIZE (run events)) := by
  refine ⟨?_, fun hunauth => ?_⟩
  · induction events using List.reverseRecOn with
    | nil => exact bounded_connected _
    | append_singleton events e ih =>
      rw [run, List.foldl_append]
      exact ih.step (Or.inl le_rfl) e
  · suffices h : Bounded MAX_UNAUTH_MESSAGE_SIZE (run events) ∧
        (run events).isAuthenticated = false from h.1
    induction events using List.reverseRecOn with
    | nil => exact ⟨bounded_connected _, rfl⟩
    | append_singleton events e ih =>
      obtain ⟨hbounded, hauth⟩ := ih fun e he => hunauth e (by simp [he])
      rw [run, List.foldl_append]
      exact ⟨hbounded.step (Or.inr ⟨hauth, le_rfl⟩) e,
        isAuthenticated_step (hunauth e (by simp)) hauth⟩

/-! ## From one end to the other -/

section Delivery

variable {M : Type} {s : Outgoing.State M}

/-- What a write writes. -/
def buffer : Outgoing.Async M → Option M
  | .write buf => some buf
  | .flush => none

/-- What has been given to the socket: what is written, and what is being written. -/
def wire (s : Outgoing.State M) : List M :=
  s.peer.mSocket.written ++ s.peer.mSocket.outstanding.filterMap buffer

theorem wire_isPrefix_queued (h : Outgoing.Phase s) : wire s <+: s.queued := by
  cases h with
  | idle mState sent => exact ⟨[], by simp [wire, buffer]⟩
  | writing mState written flushed buf queue => exact ⟨queue, by simp [wire, buffer]⟩
  | flushing mState written flushed queue => exact ⟨queue, by simp [wire, buffer]⟩
  | stoppedWriting mState written flushed queue lost flushFailed =>
    exact ⟨lost, by simp [wire, buffer]⟩
  | stoppedFlushing mState written flushed queue => exact ⟨queue, by simp [wire, buffer]⟩

theorem queued_mono (pre post : List (Outgoing.Event M)) :
    (Outgoing.run pre).queued <+: (Outgoing.run (pre ++ post)).queued := by
  induction post using List.reverseRecOn with
  | nil => rw [List.append_nil]
  | append_singleton post e ih =>
    refine ih.trans ?_
    have hstep : Outgoing.run (pre ++ (post ++ [e])) =
        Outgoing.step (Outgoing.run (pre ++ post)) e := by
      rw [← List.append_assoc, Outgoing.run, List.foldl_append]
      rfl
    rw [hstep]
    unfold Outgoing.step
    cases e with
    | sendMessage xdrBytes => exact List.prefix_append _ _
    | complete i ec =>
      simp only
      split
      · exact List.prefix_rfl
      · exact List.prefix_rfl

theorem format_size {n : ℕ} (hpos : 0 < n) (hmax : n ≤ MAX_MESSAGE_SIZE) :
    format.size (lengthWord n) = some n := by
  have hlt : n < 2 ^ 31 := lt_of_le_of_lt hmax (by decide)
  obtain ⟨b₀, b₁, b₂, b₃, hword, hsize, -⟩ := Util.recordSize_lengthWord hlt
  have hheader : TCPPeer.headerSize (lengthWord n) = n := by
    rw [hword]
    exact hsize
  show (if _ then none else _) = _
  rw [hheader, if_neg (by omega)]

/-- **Messages arrive in order.** `raw` is what is written for a message: the size of its body and
the body. The bytes that arrive at one end are the first of those that the other end has ever given
to its socket. Then the messages taken at the one end are the first of those sent at the other end,
and if all have arrived and the reader waits for more, then all have been taken. -/
theorem delivered_in_order (raw body : M → List UInt8)
    (hraw : ∀ m, raw m = lengthWord (body m).length ++ body m) (pre post : List (Outgoing.Event M))
    (hsize : ∀ m ∈ (Outgoing.run (pre ++ post)).queued,
      0 < (body m).length ∧ (body m).length ≤ MAX_MESSAGE_SIZE)
    (events : List Event)
    (harrived : arrived events <+: (wire (Outgoing.run pre)).flatMap raw) :
    (run events).taken <+: (Outgoing.run (pre ++ post)).queued.map body ∧
    (arrived events = (Outgoing.run (pre ++ post)).queued.flatMap raw → Waits (run events) →
      (run events).taken = (Outgoing.run (pre ++ post)).queued.map body) := by
  obtain ⟨-, htaken, hall⟩ := taken_run events
  have hrecords : ∀ l : List M, l <+: (Outgoing.run (pre ++ post)).queued →
      format.records (l.flatMap raw) = l.map body := by
    intro l hl
    refine RecordFormat.records_flatMap fun m hm => ?_
    obtain ⟨hpos, hmax⟩ := hsize m (hl.subset hm)
    exact ⟨_, hraw m, rfl, format_size hpos hmax⟩
  have hwire : wire (Outgoing.run pre) <+: (Outgoing.run (pre ++ post)).queued :=
    (wire_isPrefix_queued (Outgoing.phase_run pre)).trans (queued_mono pre post)
  refine ⟨?_, fun heq hwaits => ?_⟩
  · have hprefix := htaken.trans (RecordFormat.records_prefix harrived)
    rw [hrecords _ hwire] at hprefix
    exact hprefix.trans (hwire.map body)
  · rw [hall hwaits, heq, hrecords _ List.prefix_rfl]

end Delivery

/-! ## Two messages in three pieces -/

/-- Both messages are sent, and the first one is being written. -/
def twoSent : List (Outgoing.Event (List UInt8)) := [.sendMessage [1, 2], .sendMessage [3]]

/-- All of it arrives: the pieces end in a header and in a body. -/
def threePieces : List Event :=
  [.arrive [0x80, 0], .complete .GOT_HELLO, .arrive [0, 2, 1], .complete .GOT_HELLO,
    .complete .GOT_HELLO, .arrive [2, 0x80, 0, 0, 1, 3], .complete .GOT_HELLO, .complete .GOT_HELLO,
    .complete .GOT_HELLO]

/-- A message as it is written. -/
def framed (m : List UInt8) : List UInt8 := lengthWord m.length ++ m

theorem delivered_in_order_threePieces :
    (run threePieces).taken = [[1, 2], [3]] ∧
    (run threePieces).taken =
      (Outgoing.run (twoSent ++ [.complete 0 false] ++ [.complete 0 false])).queued.map id := by
  have hraw (m : List UInt8) : framed m = lengthWord (id m).length ++ id m := rfl
  have hsize : ∀ m ∈ (Outgoing.run (twoSent ++ [.complete 0 false] ++ [.complete 0 false])).queued,
      0 < (id m).length ∧ (id m).length ≤ MAX_MESSAGE_SIZE := by decide +kernel
  have harrived : arrived threePieces <+:
      (wire (Outgoing.run (twoSent ++ [.complete 0 false]))).flatMap framed := by decide +kernel
  have hall : arrived threePieces =
      (Outgoing.run (twoSent ++ [.complete 0 false] ++ [.complete 0 false])).queued.flatMap
        framed := by decide +kernel
  have hwaits : Waits (run threePieces) := Or.inl ⟨by decide +kernel, by decide +kernel⟩
  have h := delivered_in_order framed id hraw (twoSent ++ [.complete 0 false]) [.complete 0 false]
  exact ⟨by decide +kernel, (h hsize threePieces harrived).2 hall hwaits⟩

end SmartCore.Overlay.Incoming
