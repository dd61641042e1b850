import SmartCore.Overlay.Peer

/-!
# Outgoing messages

A peer's messages wait in a queue and are written to its socket one at a time; when the queue is
empty the socket is flushed. The first message sent starts the chain of writes. Each write starts the
next one, or a flush, when it completes, and each flush starts a write if a message has come
meanwhile.

In every run at most one write or flush is outstanding. The messages are written in the order in which
they were sent, and none of them waits when nothing is outstanding, as long as neither a write nor a
flush fails (`ordered_run`). A flush that fails ends the chain, and the messages that have come
meanwhile wait for good (`waits_after_flush`). The proof says in which of five phases the chain is
(`Phase`).
-/

namespace SmartCore.Overlay.Outgoing

/-! ## The code -/

/-- What the socket is asked to do. -/
inductive Async (M : Type) where
  | write (buf : M)
  | flush
deriving DecidableEq

def Async.isFlush {M : Type} : Async M → Bool
  | write _ => false
  | flush => true

/-- The socket has a buffer: what is written stays there until it is flushed. -/
structure Socket (M : Type) where
  outstanding : List (Async M) := []
  written : List M := []
  flushed : List M := []

structure TCPPeer (M : Type) where
  mState : PeerState := .CONNECTING
  mSocket : Socket M := {}
  mWriteQueue : List M := []
  mWriting : Bool := false

section Code

variable {M : Type} (p : TCPPeer M)

def TCPPeer.start (op : Async M) : TCPPeer M :=
  { p with mSocket.outstanding := p.mSocket.outstanding ++ [op] }

/-- It peeks the buffer from the queue, but does not remove it yet. -/
def TCPPeer.messageSender : TCPPeer M :=
  match p.mWriteQueue with
  -- if nothing to do, flush and return
  | [] => p.start .flush
  | buf :: _ => p.start (.write buf)

def TCPPeer.sendMessage (xdrBytes : M) : TCPPeer M :=
  let p := { p with mWriteQueue := p.mWriteQueue ++ [xdrBytes] }
  if p.mWriting then p
  -- kick off the async write chain if we're the first one
  else { p with mWriting := true }.messageSender

/-- The socket is shut down and closed later. -/
def TCPPeer.drop : TCPPeer M := { p with mState := .CLOSING }

def TCPPeer.writeHandler (error : Bool) : TCPPeer M := if error then p.drop else p

/-- What is called when a write or a flush completes. -/
def TCPPeer.handler (ec : Bool) : Async M → TCPPeer M
  | .flush =>
    let p := p.writeHandler ec
    if ec then p
    else if p.mWriteQueue ≠ [] then p.messageSender
    else { p with mWriting := false }
  | .write _ =>
    let p := p.writeHandler ec
    -- done with front element
    let p := { p with mWriteQueue := p.mWriteQueue.tail }
    if ec then p
    -- continue processing the queue/flush
    else p.messageSender

end Code

/-! ## Runs -/

/-- The socket completes what it was asked to do. -/
def Socket.complete {M : Type} (s : Socket M) (i : ℕ) (ec : Bool) (op : Async M) : Socket M :=
  { outstanding := s.outstanding.eraseIdx i
    written := match op, ec with
      | .write buf, false => s.written ++ [buf]
      | _, _ => s.written
    flushed := match op, ec with
      | .flush, false => s.written
      | _, _ => s.flushed }

/-- The peer, the messages it was sent, and what has failed. -/
structure State (M : Type) where
  peer : TCPPeer M := {}
  queued : List M := []
  writeFailed : Bool := false
  flushFailed : Bool := false

/-- Any of the outstanding operations may complete next. -/
inductive Event (M : Type) where
  | sendMessage (xdrBytes : M)
  | complete (i : ℕ) (ec : Bool)

section Runs

variable {M : Type}

def step (s : State M) : Event M → State M
  | .sendMessage xdrBytes =>
    { s with peer := s.peer.sendMessage xdrBytes, queued := s.queued ++ [xdrBytes] }
  | .complete i ec =>
    match s.peer.mSocket.outstanding[i]? with
    | none => s
    | some op =>
      { s with
        peer := { s.peer with mSocket := s.peer.mSocket.complete i ec op }.handler ec op
        writeFailed := s.writeFailed || ec && !op.isFlush
        flushFailed := s.flushFailed || ec && op.isFlush }

def run (events : List (Event M)) : State M := events.foldl step {}

/-- What holds of the outgoing messages. -/
structure Ordered (s : State M) : Prop where
  /-- One write or flush at a time. -/
  one : s.peer.mSocket.outstanding.length ≤ 1
  /-- The buffer stays in the queue for the duration of the write. -/
  kept : ∀ buf, .write buf ∈ s.peer.mSocket.outstanding → s.peer.mWriteQueue.head? = some buf
  /-- Even if something fails, what is written is the first of what was sent, in order. -/
  inOrder : s.peer.mSocket.written <+: s.queued
  /-- Nothing is lost or duplicated. -/
  exact : s.writeFailed = false → s.peer.mSocket.written ++ s.peer.mWriteQueue = s.queued
  /-- No message waits while nothing is outstanding; all have been written and flushed. -/
  nothingWaits : s.writeFailed = false → s.flushFailed = false →
    s.peer.mSocket.outstanding = [] →
    s.peer.mWriteQueue = [] ∧ s.peer.mSocket.written = s.queued ∧
      s.peer.mSocket.flushed = s.queued
  /-- If no more messages are sent, the chain ends. -/
  ends : s.writeFailed = false → s.flushFailed = false →
    ∃ n, ((step · (.complete 0 false))^[n] s).peer =
      ⟨s.peer.mState, ⟨[], s.queued, s.queued⟩, [], false⟩

end Runs

/-! ## Phases -/

/-- The phases of the chain of writes. -/
inductive Phase {M : Type} : State M → Prop where
  | idle (mState : PeerState) (sent : List M) :
    Phase ⟨⟨mState, ⟨[], sent, sent⟩, [], false⟩, sent, false, false⟩
  | writing (mState : PeerState) (written flushed : List M) (buf : M) (queue : List M) :
    Phase ⟨⟨mState, ⟨[.write buf], written, flushed⟩, buf :: queue, true⟩,
      written ++ buf :: queue, false, false⟩
  | flushing (mState : PeerState) (written flushed queue : List M) :
    Phase ⟨⟨mState, ⟨[.flush], written, flushed⟩, queue, true⟩, written ++ queue, false, false⟩
  | stoppedWriting (mState : PeerState) (written flushed queue lost : List M) (flushFailed : Bool) :
    Phase ⟨⟨mState, ⟨[], written, flushed⟩, queue, true⟩, written ++ lost, true, flushFailed⟩
  | stoppedFlushing (mState : PeerState) (written flushed queue : List M) :
    Phase ⟨⟨mState, ⟨[], written, flushed⟩, queue, true⟩, written ++ queue, false, true⟩

section Phases

variable {M : Type} {s : State M}

/-- A message starts the chain if it is the first. -/
theorem phase_sendMessage (h : Phase s) (xdrBytes : M) : Phase (step s (.sendMessage xdrBytes)) := by
  cases h with
  | idle mState sent => exact .writing mState sent sent xdrBytes []
  | writing mState written flushed buf queue =>
    have hphase := Phase.writing mState written flushed buf (queue ++ [xdrBytes])
    rwa [← List.cons_append, ← List.append_assoc] at hphase
  | flushing mState written flushed queue =>
    have hphase := Phase.flushing mState written flushed (queue ++ [xdrBytes])
    rwa [← List.append_assoc] at hphase
  | stoppedWriting mState written flushed queue lost flushFailed =>
    have hphase := Phase.stoppedWriting mState written flushed (queue ++ [xdrBytes])
      (lost ++ [xdrBytes]) flushFailed
    rwa [← List.append_assoc] at hphase
  | stoppedFlushing mState written flushed queue =>
    have hphase := Phase.stoppedFlushing mState written flushed (queue ++ [xdrBytes])
    rwa [← List.append_assoc] at hphase

/-- A write that completes starts the next one or a flush; a flush that completes starts a write or
ends the chain. -/
theorem phase_complete (h : Phase s) (i : ℕ) (ec : Bool) : Phase (step s (.complete i ec)) := by
  cases h with
  | idle mState sent => exact .idle mState sent
  | writing mState written flushed buf queue =>
    obtain _ | i := i
    · cases ec with
      | false =>
        cases queue with
        | nil =>
          have hphase := Phase.flushing mState (written ++ [buf]) flushed []
          rwa [List.append_nil] at hphase
        | cons next queue =>
          have hphase := Phase.writing mState (written ++ [buf]) flushed next queue
          rwa [List.append_assoc] at hphase
      | true => exact .stoppedWriting .CLOSING written flushed queue (buf :: queue) false
    · exact .writing mState written flushed buf queue
  | flushing mState written flushed queue =>
    obtain _ | i := i
    · cases ec with
      | false =>
        cases queue with
        | nil =>
          change Phase ⟨⟨mState, ⟨[], written, written⟩, [], false⟩, written ++ [], false, false⟩
          rw [List.append_nil]
          exact .idle mState written
        | cons next queue => exact .writing mState written written next queue
      | true => exact .stoppedFlushing .CLOSING written flushed queue
    · exact .flushing mState written flushed queue
  | stoppedWriting mState written flushed queue lost flushFailed =>
    exact .stoppedWriting mState written flushed queue lost flushFailed
  | stoppedFlushing mState written flushed queue =>
    exact .stoppedFlushing mState written flushed queue

theorem phase_step (h : Phase s) (e : Event M) : Phase (step s e) := by
  cases e with
  | sendMessage xdrBytes => exact phase_sendMessage h xdrBytes
  | complete i ec => exact phase_complete h i ec

theorem phase_run (events : List (Event M)) : Phase (run events) := by
  induction events using List.reverseRecOn with
  | nil => exact .idle .CONNECTING []
  | append_singleton events e ih =>
    rw [run, List.foldl_append]
    exact phase_step ih e

/-- As many writes as there are messages in the queue, and a flush, end the chain. -/
theorem writing_ends (mState : PeerState) (written flushed : List M) (buf : M) (queue queued : List M) :
    ((step · (.complete 0 false))^[queue.length + 2]
      ⟨⟨mState, ⟨[.write buf], written, flushed⟩, buf :: queue, true⟩, queued, false, false⟩).peer =
    ⟨mState, ⟨[], written ++ buf :: queue, written ++ buf :: queue⟩, [], false⟩ := by
  induction queue generalizing written buf with
  | nil => rfl
  | cons next queue ih =>
    have hstep := ih (written ++ [buf]) next
    rwa [List.append_assoc] at hstep

theorem Phase.ends (h : Phase s) (hwrite : s.writeFailed = false) (hflush : s.flushFailed = false) :
    ∃ n, ((step · (.complete 0 false))^[n] s).peer =
      ⟨s.peer.mState, ⟨[], s.queued, s.queued⟩, [], false⟩ := by
  cases h with
  | idle mState sent => exact ⟨0, rfl⟩
  | writing mState written flushed buf queue => exact ⟨_, writing_ends _ _ _ _ _ _⟩
  | flushing mState written flushed queue =>
    cases queue with
    | nil => exact ⟨1, by simp [step, TCPPeer.handler, TCPPeer.writeHandler, Socket.complete]⟩
    | cons next queue => exact ⟨queue.length + 3, writing_ends _ _ _ _ _ _⟩
  | stoppedWriting => exact nomatch hwrite
  | stoppedFlushing => exact nomatch hflush

theorem Phase.ordered (h : Phase s) : Ordered s := by
  have hends := h.ends
  cases h with
  | idle mState sent =>
    exact ⟨Nat.zero_le 1, nofun, List.prefix_rfl, fun _ => List.append_nil sent,
      fun _ _ _ => ⟨rfl, rfl, rfl⟩, hends⟩
  | writing mState written flushed buf queue =>
    refine ⟨Nat.le_refl 1, fun b hb => ?_, List.prefix_append _ _, fun _ => rfl, nofun, hends⟩
    cases List.mem_singleton.mp hb
    rfl
  | flushing mState written flushed queue =>
    refine ⟨Nat.le_refl 1, fun b hb => ?_, List.prefix_append _ _, fun _ => rfl, nofun, hends⟩
    cases List.mem_singleton.mp hb
  | stoppedWriting mState written flushed queue lost flushFailed =>
    exact ⟨Nat.zero_le 1, nofun, List.prefix_append _ _, nofun, nofun, hends⟩
  | stoppedFlushing mState written flushed queue =>
    exact ⟨Nat.zero_le 1, nofun, List.prefix_append _ _, fun _ => rfl, nofun, hends⟩

/-- In every run the outgoing messages keep their order, and none is left behind. -/
theorem ordered_run (events : List (Event M)) : Ordered (run events) := (phase_run events).ordered

end Phases

/-- A message comes while the first one is flushed, and the flush fails: no write has failed, nothing
is outstanding, and the message waits. -/
theorem waits_after_flush :
    let s := run [.sendMessage 1, .complete 0 false, .sendMessage 2, .complete 0 true]
    s.writeFailed = false ∧ s.peer.mSocket.outstanding = [] ∧ s.peer.mWriteQueue = [2] := by
  decide

end SmartCore.Overlay.Outgoing
