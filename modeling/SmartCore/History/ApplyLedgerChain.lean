import Mathlib.Data.List.Nodup
import SmartCore.History.VerifyLedgerChain

/-!
# Replaying a chain of ledgers

`ApplyLedgerChainWork` closes again the ledgers of an archive. It reads the header files that
`VerifyLedgerChainWork` has accepted, one checkpoint after the other, and beside them the files with
the transaction sets. The two streams are read at different speeds: a ledger without transactions
has a header but no entry in the transaction file, so the work reads one entry ahead.

Whatever the files hold, the ledgers are closed once and in order, each with a set that has the hash
its header gives. If a ledger turns out to have another hash than its header says, then no later
attempt gets past that header.

The work never compares a header with the last ledger it was asked for. A header file that goes on
after its checkpoint and comes back to it is accepted, since only the entry read last has to be the
checkpoint's own; the work then closes ledgers that nobody asked for (`replay_beyond_last`).

Main result: `replay_exact`, over all files and any number of attempts.
-/

namespace SmartCore.History

open SCP (Uint32 Hash)

/-! ## The work -/

/-- What a transaction file says about a ledger. -/
structure TransactionHistoryEntry where
  ledgerSeq : Uint32
  txSet : TxSetFrame
deriving DecidableEq, Repr

inductive ReplayError where
  /-- A transaction file cannot be read on. -/
  | unreadable
  /-- "replay failed to connect on hash of LCL predecessor" -/
  | predecessor
  /-- "replay at LCL disagreed on hash" -/
  | atLCL
  /-- "replay overshot current ledger" -/
  | overshot
  /-- "replay at current ledger disagreed on LCL hash" -/
  | disagreed
  /-- "replay txset hash differs from txset hash in replay ledger" -/
  | txSetHash
  /-- "replay produced mismatched ledger hash" -/
  | mismatched
  | closing (e : Fault)
deriving DecidableEq, Repr

/-- Does `onRun` catch it? -/
def ReplayError.isException : ReplayError → Bool
  | closing e => e.isException
  | _ => true

/-- A ledger that was closed: the header it was closed for, the transaction set, and the last closed
ledger after it. -/
structure ReplayedLedger where
  hHeader : LedgerHeaderHistoryEntry
  txset : TxSetFrame
  lastClosed : LedgerHeaderHistoryEntry
deriving DecidableEq, Repr

def ReplayedLedger.seq (p : ReplayedLedger) : Uint32 := p.hHeader.header.ledgerSeq

/-- The ledger was closed with the hash its header gives. -/
def ReplayedLedger.Matches (p : ReplayedLedger) : Prop := p.lastClosed.hash = p.hHeader.hash

/-- The mutable part of the work, with the ledger manager it works on. `none` in a transaction file
is where it cannot be read. No function reads `replayed`, the ledgers closed so far, or `failure`,
the error logged last. -/
structure ApplyState where
  lm : LedgerManager
  mCurrSeq : Uint32
  mHdrIn : List LedgerHeaderHistoryEntry := []
  mTxIn : List (Option TransactionHistoryEntry) := []
  mTxHistoryEntry : TransactionHistoryEntry
  mLastApplied : LedgerHeaderHistoryEntry
  replayed : List ReplayedLedger := []
  failure : Option ReplayError := none

/-- What a replay runs on: the header files are those of the verification that went before it.
`emptyTxSetHash` is the hash of a set without transactions, for the ledger hash it follows. -/
structure ApplyLedgerChainWork where
  app : Application
  verified : ChainWork
  transactions : Uint32 → List (Option TransactionHistoryEntry)
  emptyTxSetHash : Hash → Hash

abbrev ReplayM := EStateM ReplayError ApplyState

namespace ApplyLedgerChainWork

variable (w : ApplyLedgerChainWork)

def mFirstSeq : Uint32 := w.verified.mFirstSeq

def mLastSeq : Uint32 := w.verified.mLastSeq

def checkpointFrequency : Uint32 := getCheckpointFrequency w.verified.accelerated

/-- `TxSetFrame(previousLedgerHash)`. -/
def emptyTxSet (previousLedgerHash : Hash) : TxSetFrame :=
  ⟨previousLedgerHash, w.emptyTxSetHash previousLedgerHash⟩

/-- `TransactionHistoryEntry()`. -/
def emptyTxHistoryEntry : TransactionHistoryEntry := ⟨0, w.emptyTxSet 0⟩

def onReset (s : ApplyState) : ApplyState :=
  { s with
    mLastApplied := s.lm.mLastClosedLedger
    mCurrSeq := w.mFirstSeq
    mHdrIn := []
    mTxIn := [] }

def openCurrentInputFiles (s : ApplyState) : ApplyState :=
  if w.mLastSeq < s.mCurrSeq then { s with mHdrIn := [], mTxIn := [] }
  else
    { s with
      mHdrIn := w.verified.files s.mCurrSeq
      mTxIn := w.transactions s.mCurrSeq
      mTxHistoryEntry := w.emptyTxHistoryEntry }

/-- The loop of `getCurrentTxSet`, with the entry at hand and those still to read. -/
def readTxSets (seq : Uint32) (entry : TransactionHistoryEntry)
    (mTxIn : List (Option TransactionHistoryEntry)) :
    Except ReplayError
      (Option TxSetFrame × TransactionHistoryEntry × List (Option TransactionHistoryEntry)) :=
  if entry.ledgerSeq < seq then
    match mTxIn with
    | [] => .ok (none, entry, [])
    | none :: _ => .error .unreadable
    | some next :: rest => readTxSets seq next rest
  else if seq < entry.ledgerSeq then .ok (none, entry, mTxIn)
  else .ok (some entry.txSet, entry, mTxIn)

def getCurrentTxSet : ReplayM TxSetFrame := do
  let s ← get
  match readTxSets s.lm.mCurrentLedger.ledgerSeq s.mTxHistoryEntry s.mTxIn with
  | .error e => throw e
  | .ok (txset, entry, rest) => do
    set { s with mTxHistoryEntry := entry, mTxIn := rest }
    pure (txset.getD (w.emptyTxSet s.lm.mLastClosedLedger.hash))

def closeLedger (hHeader : LedgerHeaderHistoryEntry) (closeData : LedgerCloseData) : ReplayM Unit :=
  fun s =>
    match w.app.closeLedger closeData s.lm with
    | .ok _ lm =>
      .ok () { s with
        lm := lm
        replayed := s.replayed ++ [⟨hHeader, closeData.mTxSet, lm.mLastClosedLedger⟩] }
    | .error e lm => .error (.closing e) { s with lm := lm }

def applyHistoryOfSingleLedger : ReplayM Bool := do
  let s ← get
  match s.mHdrIn with
  | [] => pure false
  | hHeader :: rest => do
    set { s with mHdrIn := rest }
    let header := hHeader.header
    let lastClosed := s.lm.mLastClosedLedger
    -- more than one before the last closed ledger: skip
    if header.ledgerSeq + 1 < lastClosed.header.ledgerSeq then pure true
    else if header.ledgerSeq + 1 = lastClosed.header.ledgerSeq then do
      require (decide (hHeader.hash = lastClosed.header.previousLedgerHash)) .predecessor
      pure true
    else if header.ledgerSeq = lastClosed.header.ledgerSeq then do
      require (decide (hHeader.hash = lastClosed.hash)) .atLCL
      pure true
    else do
      require (decide (header.ledgerSeq = s.lm.mCurrentLedger.ledgerSeq)) .overshot
      require (decide (header.previousLedgerHash = lastClosed.hash)) .disagreed
      let txset ← w.getCurrentTxSet
      if h : txset.getContentsHash = header.scpValue.txSetHash then do
        w.closeLedger hHeader ⟨header.ledgerSeq, txset, header.scpValue, h⟩
        let s ← get
        require (decide (s.lm.mLastClosedLedger.hash = hHeader.hash)) .mismatched
        set { s with mLastApplied := hHeader }
        pure true
      else throw .txSetHash

/-- `onRun`: does it schedule success? No answer stands for an exception that it does not catch. -/
def onRun (s : ApplyState) : Option (Bool × ApplyState) :=
  match w.applyHistoryOfSingleLedger s with
  | .ok true t => some (true, t)
  | .ok false t =>
    some (true, w.openCurrentInputFiles { t with mCurrSeq := t.mCurrSeq + w.checkpointFrequency })
  | .error e t => if e.isException then some (false, { t with failure := some e }) else none

def onSuccess (s : ApplyState) : WorkState :=
  if w.mLastSeq < s.mCurrSeq then .WORK_SUCCESS else .WORK_RUNNING

/-- `onRun`, and what comes of it. -/
def advance (s : ApplyState) : Option (WorkState × ApplyState) :=
  match w.onRun s with
  | none => none
  | some (true, t) => some (w.onSuccess t, t)
  | some (false, t) => some (.WORK_FAILURE_RETRY, t)

/-- An attempt, of at most `n` steps. -/
def attempt : ℕ → ApplyState → Option (WorkState × ApplyState)
  | 0, s => some (.WORK_RUNNING, s)
  | n + 1, s =>
    match w.advance s with
    | some (.WORK_RUNNING, t) => attempt n t
    | r => r

/-- `onReset` and `onStart`. -/
def start (s : ApplyState) : ApplyState := w.openCurrentInputFiles (w.onReset s)

def create (lm : LedgerManager) : ApplyState where
  lm := lm
  mCurrSeq := w.mFirstSeq
  mTxHistoryEntry := w.emptyTxHistoryEntry
  mLastApplied := lm.mLastClosedLedger

/-- The states that a work on `lm` goes through, with any number of attempts. -/
inductive Reached (lm : LedgerManager) : WorkState → ApplyState → Prop
  | start : Reached lm .WORK_RUNNING (w.start (w.create lm))
  | advance {s t : ApplyState} {r : WorkState} (hs : Reached lm .WORK_RUNNING s)
      (h : w.advance s = some (r, t)) : Reached lm r t
  | retry {s : ApplyState} (hs : Reached lm .WORK_FAILURE_RETRY s) :
      Reached lm .WORK_RUNNING (w.start s)

/-! ## The condition -/

/-- The header files were accepted, after attempts that have left any headers. -/
def Accepted : Prop :=
  ∃ n firstVerified lastVerified t,
    w.verified.attempt n (w.verified.onReset firstVerified lastVerified) = some (.WORK_SUCCESS, t)

/-- The checkpoints that are replayed. -/
structure Checkpoint (c : Uint32) : Prop where
  aligned : ChainWork.Aligned w.verified.accelerated c
  first_le : w.mFirstSeq ≤ c
  le_last : c ≤ w.mLastSeq

/-- No header is for a ledger after the last one requested, or else after `lcl`. The addition is the
one of the source. -/
def NothingBeyond (lcl : Uint32) : Prop :=
  ∀ c, w.Checkpoint c → ∀ e ∈ w.verified.files c,
    (e.header.ledgerSeq + 1).val ≤ max w.mLastSeq.val lcl.val + 1

/-- No header is in the file of an earlier checkpoint. -/
def InOwnFiles : Prop :=
  ∀ c, w.Checkpoint c → ∀ e ∈ w.verified.files c, e.header.ledgerSeq ≤ c

/-- The entries of a transaction file are in ascending order. There is the set of each ledger of the
checkpoint with transactions, and nothing for one without. Of several headers for a ledger the first
one counts. -/
structure Holds (c : Uint32) (l : List TransactionHistoryEntry) : Prop where
  file : w.transactions c = l.map some
  ascending : l.Pairwise (·.ledgerSeq < ·.ledgerSeq)
  right : ∀ pre e post, w.verified.files c = pre ++ e :: post → e.header.ledgerSeq ≤ c →
    (∀ x ∈ pre, x.header.ledgerSeq ≠ e.header.ledgerSeq) →
      (∃ t ∈ l, t.ledgerSeq = e.header.ledgerSeq ∧
        t.txSet.getContentsHash = e.header.scpValue.txSetHash) ∨
      (∀ t ∈ l, t.ledgerSeq ≠ e.header.ledgerSeq) ∧
        e.header.scpValue.txSetHash = w.emptyTxSetHash e.header.previousLedgerHash

def RightTransactions : Prop := ∀ c, w.Checkpoint c → ∃ l, w.Holds c l

variable {w} {s : ApplyState}

/-! ## Closing one ledger -/

/-- What is closed stays, and no ledger is added. -/
structure Idle (s t : LedgerManager) : Prop where
  lastClosed : t.mLastClosedLedger = s.mLastClosedLedger
  current : t.mCurrentLedger.ledgerSeq = s.mCurrentLedger.ledgerSeq
  closed : closed t.log = closed s.log

/-- The current ledger is closed. -/
structure Closed (s t : LedgerManager) (d : LedgerCloseData) : Prop where
  lcl : t.lcl = s.mCurrentLedger.ledgerSeq
  current : t.mCurrentLedger.ledgerSeq = t.lcl + 1
  closed : closed t.log = closed s.log ++ [s.mCurrentLedger.ledgerSeq]

theorem app_closeLedger {app : Application} {d : LedgerCloseData} {lm : LedgerManager} :
    wp (app.closeLedger d) (fun _ t => Closed lm t d) (fun e t => Idle lm t ∧ e.isException)
      lm := by
  have hcall : closed (lm.log ++ [.closeLedger lm.lcl d.mLedgerSeq]) = closed lm.log := by
    simp [closed]
  unfold Application.closeLedger Application.advanceLedgerPointers Application.makeCurrentLedger
    record
  simp only [wp_bind, wp_get, wp_set, wp_modify, wp_require, wp_deref]
  refine ⟨fun _ => ⟨fun _ => ⟨fun r _ => ⟨fun _ => ⟨rfl, rfl, ?_⟩, fun hbad => ?_⟩, fun _ => ?_⟩,
    fun _ => ?_⟩, fun _ => ?_⟩
  · simp [closed]
  · simp at hbad
  · exact ⟨⟨rfl, rfl, hcall⟩, rfl⟩
  · exact ⟨⟨rfl, rfl, hcall⟩, rfl⟩
  · exact ⟨⟨rfl, rfl, hcall⟩, rfl⟩

theorem wp_closeLedger {hHeader : LedgerHeaderHistoryEntry} {d : LedgerCloseData} :
    wp (w.closeLedger hHeader d)
      (fun _ t => Closed s.lm t.lm d ∧ t = { s with
        lm := t.lm
        replayed := s.replayed ++ [⟨hHeader, d.mTxSet, t.lm.mLastClosedLedger⟩] })
      (fun e t => (∃ f : Fault, e = .closing f ∧ f.isException) ∧ Idle s.lm t.lm ∧
        t = { s with lm := t.lm }) s := by
  have h : wp (w.app.closeLedger d) _ _ s.lm := app_closeLedger
  unfold wp at h ⊢
  unfold closeLedger
  cases hrun : w.app.closeLedger d s.lm with
  | ok u lm =>
    rw [hrun] at h
    exact ⟨h, rfl⟩
  | error e lm =>
    rw [hrun] at h
    exact ⟨⟨e, rfl, h.2⟩, h.1, rfl⟩

/-! ## One header -/

/-- What one header can do. The header is passed over; or it is refused, and nothing is closed; or
it is closed for, in which case it is ahead of the last closed ledger. -/
inductive Outcome (w : ApplyLedgerChainWork) (s : ApplyState) :
    EStateM.Result ReplayError ApplyState Bool → Prop
  | endOfFile (h : s.mHdrIn = []) : Outcome w s (.ok false s)
  | skipped {e : LedgerHeaderHistoryEntry} {rest : List LedgerHeaderHistoryEntry}
      (h : s.mHdrIn = e :: rest)
      (behind : e.header.ledgerSeq + 1 ≤ s.lm.lcl ∨
        e.header.ledgerSeq = s.lm.lcl ∧ e.hash = s.lm.mLastClosedLedger.hash) :
      Outcome w s (.ok true { s with mHdrIn := rest })
  | refused {t : ApplyState} {e : LedgerHeaderHistoryEntry} 
      {rest : List LedgerHeaderHistoryEntry} {err : ReplayError}
      (h : s.mHdrIn = e :: rest) (caught : err.isException)
      (why : err = .txSetHash → s.lm.lcl < e.header.ledgerSeq + 1 ∧
        e.header.ledgerSeq = s.lm.mCurrentLedger.ledgerSeq ∧
        e.header.previousLedgerHash = s.lm.mLastClosedLedger.hash ∧
        ∃ txset entry mTxIn,
          readTxSets e.header.ledgerSeq s.mTxHistoryEntry s.mTxIn = .ok (txset, entry, mTxIn) ∧
          (txset.getD (w.emptyTxSet e.header.previousLedgerHash)).getContentsHash ≠
            e.header.scpValue.txSetHash)
      (idle : Idle s.lm t.lm) (same : t.replayed = s.replayed) :
      Outcome w s (.error err t)
  | closes {t : ApplyState} {e : LedgerHeaderHistoryEntry} {rest : List LedgerHeaderHistoryEntry}
      {txset : Option TxSetFrame} {d : LedgerCloseData} (h : s.mHdrIn = e :: rest)
      (ahead : s.lm.lcl < e.header.ledgerSeq + 1)
      (current : e.header.ledgerSeq = s.lm.mCurrentLedger.ledgerSeq)
      (read : readTxSets e.header.ledgerSeq s.mTxHistoryEntry s.mTxIn =
        .ok (txset, t.mTxHistoryEntry, t.mTxIn))
      (seq : t.mCurrSeq = s.mCurrSeq) (hdrIn : t.mHdrIn = rest) (failure : t.failure = s.failure)
      (closed : Closed s.lm t.lm d) (value : d.mValue = e.header.scpValue)
      (replayed : t.replayed = s.replayed ++ [⟨e, d.mTxSet, t.lm.mLastClosedLedger⟩]) :
      t.lm.mLastClosedLedger.hash = e.hash → Outcome w s (.ok true t)
  | mismatched {t : ApplyState} {e : LedgerHeaderHistoryEntry}
      {rest : List LedgerHeaderHistoryEntry} {d : LedgerCloseData} (h : s.mHdrIn = e :: rest)
      (ahead : s.lm.lcl < e.header.ledgerSeq + 1)
      (current : e.header.ledgerSeq = s.lm.mCurrentLedger.ledgerSeq)
      (closed : Closed s.lm t.lm d) (value : d.mValue = e.header.scpValue)
      (replayed : t.replayed = s.replayed ++ [⟨e, d.mTxSet, t.lm.mLastClosedLedger⟩]) :
      t.lm.mLastClosedLedger.hash ≠ e.hash → Outcome w s (.error .mismatched t)

theorem readTxSets_error {seq : Uint32} {entry : TransactionHistoryEntry}
    {mTxIn : List (Option TransactionHistoryEntry)} {err : ReplayError}
    (h : readTxSets seq entry mTxIn = .error err) : err = .unreadable := by
  induction mTxIn generalizing entry with
  | nil =>
    unfold readTxSets at h
    split_ifs at h
  | cons next rest ih =>
    unfold readTxSets at h
    split_ifs at h
    cases next with
    | none => exact (Except.error.inj h).symm
    | some next => exact ih h

theorem wp_getCurrentTxSet {Q : TxSetFrame → ApplyState → Prop}
    {E : ReplayError → ApplyState → Prop}
    (hok : ∀ txset entry rest,
      readTxSets s.lm.mCurrentLedger.ledgerSeq s.mTxHistoryEntry s.mTxIn =
          .ok (txset, entry, rest) →
        Q (txset.getD (w.emptyTxSet s.lm.mLastClosedLedger.hash))
          { s with mTxHistoryEntry := entry, mTxIn := rest })
    (herr : E .unreadable s) : wp w.getCurrentTxSet Q E s := by
  unfold getCurrentTxSet
  rw [wp_bind, wp_get]
  split
  · rename_i e he
    rw [wp_throw, readTxSets_error he]
    exact herr
  · rename_i txset entry rest hread
    rw [wp_bind, wp_set]
    exact hok txset entry rest hread

theorem wp_applyHistoryOfSingleLedger :
    wp w.applyHistoryOfSingleLedger (fun b t => w.Outcome s (.ok b t))
      (fun e t => w.Outcome s (.error e t)) s := by
  unfold applyHistoryOfSingleLedger
  rw [wp_bind, wp_get]
  split
  · rename_i h
    exact .endOfFile h
  rename_i e rest h
  rw [wp_bind, wp_set]
  dsimp only
  have idle : Idle s.lm s.lm := ⟨rfl, rfl, rfl⟩
  split_ifs with hold hprev hlast
  · exact .skipped h (.inl hold.le)
  · rw [wp_bind, wp_require]
    exact ⟨fun _ => .skipped h (.inl hprev.le), fun _ => .refused h rfl (by simp) idle rfl⟩
  · rw [wp_bind, wp_require]
    refine ⟨fun hhash => .skipped h (.inr ⟨hlast, of_decide_eq_true hhash⟩),
      fun _ => .refused h rfl (by simp) idle rfl⟩
  have hahead : s.lm.lcl < e.header.ledgerSeq + 1 :=
    lt_of_le_of_ne (not_lt.mp hold) (Ne.symm hprev)
  rw [wp_bind, wp_require]
  refine ⟨fun hcurrent => ?_, fun _ => .refused h rfl (by simp) idle rfl⟩
  rw [decide_eq_true_eq] at hcurrent
  rw [wp_bind, wp_require]
  refine ⟨fun hhash => ?_, fun _ => .refused h rfl (by simp) idle rfl⟩
  rw [decide_eq_true_eq] at hhash
  rw [wp_bind]
  refine wp_getCurrentTxSet (fun txset entry mTxIn hread => ?_) (.refused h rfl (by simp) idle rfl)
  rw [← hcurrent] at hread
  split_ifs with hset
  · rw [wp_bind]
    refine wp_mono wp_closeLedger (fun _ t ht => ?_) fun err t ht => ?_
    · obtain ⟨hclosed, ht⟩ := ht
      simp only [wp_bind, wp_get, wp_require, wp_set, wp_pure, decide_eq_true_eq,
        decide_eq_false_iff_not]
      refine ⟨fun hmatch => ?_, fun hmis => ?_⟩
      · exact .closes h hahead hcurrent (by rw [ht]; exact hread) (by rw [ht]) (by rw [ht])
          (by rw [ht]) hclosed rfl (by rw [ht]) hmatch
      · exact .mismatched h hahead hcurrent hclosed rfl (by rw [ht]) hmis
    · obtain ⟨⟨f, rfl, hf⟩, hidle, ht⟩ := ht
      exact .refused h hf (by simp) hidle (by rw [ht])
  · refine .refused h rfl (fun _ => ⟨hahead, hcurrent, hhash, txset, entry, mTxIn, hread, ?_⟩) idle
      rfl
    rw [hhash]
    exact hset

theorem outcome (w : ApplyLedgerChainWork) (s : ApplyState) :
    w.Outcome s (w.applyHistoryOfSingleLedger s) := by
  have h := wp_applyHistoryOfSingleLedger (w := w) (s := s)
  unfold wp at h
  split at h <;> simp_all

/-! ## What is closed -/

/-- The ledgers closed since `lm₀`, and the headers they were closed for. -/
structure Logged (w : ApplyLedgerChainWork) (lm₀ : LedgerManager) (s : ApplyState) : Prop where
  current : s.lm.mCurrentLedger.ledgerSeq = s.lm.lcl + 1
  lcl : s.lm.lcl.val = lm₀.lcl.val + s.replayed.length
  closed : closed s.lm.log = closed lm₀.log ++ s.replayed.map ReplayedLedger.seq
  inOrder : s.replayed.map (fun p => p.seq.val) = List.range' (lm₀.lcl.val + 1) s.replayed.length
  ahead : ∀ p ∈ s.replayed, p.seq.val + 1 = (p.seq + 1).val
  files : ∀ p ∈ s.replayed, ∃ c, w.Checkpoint c ∧ p.hHeader ∈ w.verified.files c
  sets : ∀ p ∈ s.replayed, p.txset.getContentsHash = p.hHeader.header.scpValue.txSetHash

theorem Logged.idle {lm₀ : LedgerManager} {t : ApplyState} (h : w.Logged lm₀ s)
    (hidle : Idle s.lm t.lm) (hsame : t.replayed = s.replayed) : w.Logged lm₀ t := by
  have hlcl : t.lm.lcl = s.lm.lcl := congrArg (fun e => e.header.ledgerSeq) hidle.lastClosed
  refine ⟨?_, ?_, ?_, ?_, ?_, ?_, ?_⟩
  · rw [hidle.current, hlcl]
    exact h.current
  · rw [hlcl, hsame]
    exact h.lcl
  · rw [hidle.closed, hsame]
    exact h.closed
  all_goals rw [hsame]
  · exact h.inOrder
  · exact h.ahead
  · exact h.files
  · exact h.sets

/-- The numbers around a header that is closed for. -/
structure Ahead (s t : LedgerManager) (seq : Uint32) : Prop where
  here : seq.val = s.lcl.val + 1
  next : (seq + 1).val = seq.val + 1
  lcl : t.lcl = seq

theorem Logged.next {lm₀ : LedgerManager} {seq : Uint32} (h : w.Logged lm₀ s)
    (hahead : s.lm.lcl < seq + 1) (hcurrent : seq = s.lm.mCurrentLedger.ledgerSeq) :
    seq.val = s.lm.lcl.val + 1 ∧ (seq + 1).val = seq.val + 1 := by
  rw [h.current] at hcurrent
  have hlt := s.lm.lcl.isLt
  rw [Fin.lt_def] at hahead
  subst hcurrent
  simp only [Fin.val_add, Fin.val_one] at hahead ⊢
  omega

theorem Logged.numbers {lm₀ t : LedgerManager} {seq : Uint32} {d : LedgerCloseData}
    (h : w.Logged lm₀ s) (hahead : s.lm.lcl < seq + 1)
    (hcurrent : seq = s.lm.mCurrentLedger.ledgerSeq) (hclosed : Closed s.lm t d) :
    Ahead s.lm t seq :=
  ⟨(h.next hahead hcurrent).1, (h.next hahead hcurrent).2, by rw [hclosed.lcl, hcurrent]⟩

theorem Logged.closes {lm₀ : LedgerManager} {t : ApplyState} {e : LedgerHeaderHistoryEntry}
    {d : LedgerCloseData} {c : Uint32} (h : w.Logged lm₀ s)
    (hnumbers : Ahead s.lm t.lm e.header.ledgerSeq)
    (hcurrent : e.header.ledgerSeq = s.lm.mCurrentLedger.ledgerSeq) (hclosed : Closed s.lm t.lm d)
    (hvalue : d.mValue = e.header.scpValue) (hc : w.Checkpoint c) (hmem : e ∈ w.verified.files c)
    (hreplayed : t.replayed = s.replayed ++ [⟨e, d.mTxSet, t.lm.mLastClosedLedger⟩]) :
    w.Logged lm₀ t := by
  obtain ⟨hseq, hnext, hlcl⟩ := hnumbers
  have hall := h.lcl
  refine ⟨hclosed.current, ?_, ?_, ?_, ?_, ?_, ?_⟩
  all_goals rw [hreplayed]
  · rw [hlcl, hseq, hall, List.length_append, List.length_singleton, Nat.add_assoc]
  · rw [hclosed.closed, h.closed, List.map_append, List.append_assoc, ← hcurrent]
    rfl
  · rw [List.map_append, h.inOrder, List.length_append, List.length_singleton, List.range'_concat]
    simp only [List.map_cons, List.map_nil, ReplayedLedger.seq, hseq, hall]
    congr 2
    omega
  · rintro p hp
    rcases List.mem_append.mp hp with hp | hp
    · exact h.ahead p hp
    · rw [List.mem_singleton.mp hp]
      exact hnext.symm
  · rintro p hp
    rcases List.mem_append.mp hp with hp | hp
    · exact h.files p hp
    · rw [List.mem_singleton.mp hp]
      exact ⟨c, hc, hmem⟩
  · rintro p hp
    rcases List.mem_append.mp hp with hp | hp
    · exact h.sets p hp
    · rw [List.mem_singleton.mp hp]
      exact d.txSet_value.trans (congrArg StellarValue.txSetHash hvalue)

/-! ## What is read -/

/-- An entry that the work has read satisfies `P`: those of the earlier files, and the first ones of
the file at hand. -/
structure ReadTo (w : ApplyLedgerChainWork) (P : LedgerHeaderHistoryEntry → Prop) (s : ApplyState) :
    Prop where
  checkpoint : w.Checkpoint s.mCurrSeq
  file : ∃ pre, w.verified.files s.mCurrSeq = pre ++ s.mHdrIn ∧ ∀ e ∈ pre, P e
  earlier : ∀ c, w.Checkpoint c → c < s.mCurrSeq → ∀ e ∈ w.verified.files c, P e

def AllRead (w : ApplyLedgerChainWork) (P : LedgerHeaderHistoryEntry → Prop) : Prop :=
  ∀ c, w.Checkpoint c → ∀ e ∈ w.verified.files c, P e

/-- `e` is the first entry that does not satisfy `P`. -/
def FirstAt (w : ApplyLedgerChainWork) (P : LedgerHeaderHistoryEntry → Prop)
    (e : LedgerHeaderHistoryEntry) : Prop :=
  ¬ P e ∧ ∃ c pre post, w.Checkpoint c ∧ w.verified.files c = pre ++ e :: post ∧ (∀ x ∈ pre, P x) ∧
    ∀ d, w.Checkpoint d → d < c → ∀ x ∈ w.verified.files d, P x

variable {P R : LedgerHeaderHistoryEntry → Prop}

theorem ReadTo.mono {t : ApplyState} (h : w.ReadTo P s) (hPR : ∀ e, P e → R e)
    (hseq : t.mCurrSeq = s.mCurrSeq) (hin : t.mHdrIn = s.mHdrIn) : w.ReadTo R t := by
  obtain ⟨hc, ⟨pre, hfile, hpre⟩, hearlier⟩ := h
  rw [← hseq] at hc hfile hearlier
  rw [← hin] at hfile
  exact ⟨hc, ⟨pre, hfile, fun e he => hPR e (hpre e he)⟩,
    fun c hc hlt e he => hPR e (hearlier c hc hlt e he)⟩

theorem ReadTo.next {t : ApplyState} {e : LedgerHeaderHistoryEntry}
    {rest : List LedgerHeaderHistoryEntry} (h : w.ReadTo P s) (hin : s.mHdrIn = e :: rest)
    (he : P e) (hseq : t.mCurrSeq = s.mCurrSeq) (hrest : t.mHdrIn = rest) : w.ReadTo P t := by
  obtain ⟨hc, ⟨pre, hfile, hpre⟩, hearlier⟩ := h
  rw [← hseq] at hc hfile hearlier
  refine ⟨hc, ⟨pre ++ [e], ?_, ?_⟩, hearlier⟩
  · rw [hfile, hin, hrest, List.append_assoc, List.singleton_append]
  · intro x hx
    rcases List.mem_append.mp hx with hx | hx
    · exact hpre x hx
    · rw [List.mem_singleton.mp hx]
      exact he

/-- The entry that is read next is no further than the first one that does not satisfy `P`. -/
theorem FirstAt.next {e x : LedgerHeaderHistoryEntry} {rest : List LedgerHeaderHistoryEntry}
    (hfirst : w.FirstAt P e) (h : w.ReadTo P s) (hin : s.mHdrIn = x :: rest) : P x ∨ x = e := by
  obtain ⟨hnot, c, pre, post, hc, hfile, hpre, hearlier⟩ := hfirst
  obtain ⟨pre', hfile', hpre'⟩ := h.file
  rcases lt_trichotomy s.mCurrSeq c with hlt | rfl | hlt
  · exact .inl (hearlier _ h.checkpoint hlt x (by rw [hfile', hin]; simp))
  · rw [hfile', hin] at hfile
    rcases List.append_eq_append_iff.mp hfile with ⟨l, rfl, hl⟩ | ⟨l, rfl, hl⟩
    · rcases l with - | ⟨y, l⟩
      · exact .inr (List.cons.inj hl).1
      · obtain ⟨rfl, -⟩ := List.cons.inj hl
        exact .inl (hpre x (by simp))
    · rcases l with - | ⟨y, l⟩
      · exact .inr (List.cons.inj hl).1.symm
      · obtain ⟨rfl, -⟩ := List.cons.inj hl
        exact absurd (hpre' e (by simp)) hnot
  · exact absurd (h.earlier c hc hlt e (by rw [hfile]; simp)) hnot

theorem FirstAt.not_allRead {e : LedgerHeaderHistoryEntry} (hfirst : w.FirstAt P e) :
    ¬ w.AllRead P := by
  obtain ⟨hnot, c, pre, post, hc, hfile, -⟩ := hfirst
  exact fun h => hnot (h c hc e (by rw [hfile]; simp))

/-! ## Checkpoints -/

theorem freq_cases : w.checkpointFrequency = 8 ∨ w.checkpointFrequency = 64 := by
  unfold checkpointFrequency getCheckpointFrequency
  cases w.verified.accelerated
  · exact .inr rfl
  · exact .inl rfl

/-- The file after the one that has been read, if there is one. -/
theorem Checkpoint.next {c : Uint32} (hc : w.Checkpoint c)
    (hroom : w.mLastSeq.val + w.checkpointFrequency.val < 2 ^ 32) :
    (c + w.checkpointFrequency).val = c.val + w.checkpointFrequency.val ∧
      (c + w.checkpointFrequency ≤ w.mLastSeq → w.Checkpoint (c + w.checkpointFrequency)) ∧
      ∀ d, w.Checkpoint d → d < c + w.checkpointFrequency → d ≤ c := by
  have hval : (c + w.checkpointFrequency).val = c.val + w.checkpointFrequency.val := by
    have hle : c.val ≤ w.mLastSeq.val := hc.le_last
    rw [Fin.val_add, Nat.mod_eq_of_lt (by omega)]
  have hal := hc.aligned
  refine ⟨hval, fun hle => ⟨?_, ?_, hle⟩, fun d hd hlt => ?_⟩
  · unfold ChainWork.Aligned at hal ⊢
    rw [hval, Nat.add_right_comm]
    unfold checkpointFrequency
    rw [Nat.add_mod_right]
    exact hal
  · refine hc.first_le.trans ?_
    rw [Fin.le_def, hval]
    omega
  · have hd' := hd.aligned
    unfold ChainWork.Aligned at hal hd'
    change _ % w.checkpointFrequency.val = 0 at hal hd'
    rw [Fin.lt_def, hval] at hlt
    rw [Fin.le_def]
    rcases w.freq_cases with hf | hf <;> rw [hf] at hal hd' hlt <;> simp at hal hd' hlt <;> omega

/-- What the verification has seen of the last file. -/
theorem last_of_attempt {n : ℕ} {v : ChainWork} {s t : ChainState}
    (hal : ChainWork.Aligned v.accelerated s.mCurrSeq)
    (h : v.attempt n s = some (.WORK_SUCCESS, t)) :
    s.mCurrSeq ≤ v.mLastSeq ∧ ChainWork.Aligned v.accelerated v.mLastSeq ∧
      ∃ e ∈ v.files v.mLastSeq, e.header.ledgerSeq = v.mLastSeq := by
  induction n generalizing s with
  | zero => simp [ChainWork.attempt] at h
  | succ n ih =>
    rw [ChainWork.attempt] at h
    split at h
    · rename_i u hu
      obtain ⟨curr, -, ⟨hr, -⟩ | ⟨-, hlt, hcurr⟩⟩ :=
        ChainWork.onSuccess_cases hal.ne_zero hu (.inr rfl)
      · cases hr
      · exact ⟨hlt.le, (ih (by rw [hcurr]; exact (hal.next hlt).1) h).2⟩
    · obtain ⟨curr, hacc, ⟨-, hlast⟩ | ⟨hr, -⟩⟩ :=
        ChainWork.onSuccess_cases hal.ne_zero h (.inl rfl)
      · have hseq := hacc.seq
        rw [hlast] at hal hseq
        exact ⟨hlast.le, hal, curr, List.mem_of_getLast? (by rw [← hlast]; exact hacc.file), hseq⟩
      · cases hr

theorem Accepted.last (h : w.Accepted) : w.Checkpoint w.mFirstSeq ∧ w.Checkpoint w.mLastSeq ∧
    ∃ e ∈ w.verified.files w.mLastSeq, e.header.ledgerSeq = w.mLastSeq := by
  obtain ⟨n, firstVerified, lastVerified, t, hrun⟩ := h
  have hal := ChainWork.aligned_mFirstSeq (w := w.verified)
  obtain ⟨hle, hlast, hfile⟩ := last_of_attempt (s := w.verified.onReset firstVerified lastVerified)
    hal hrun
  exact ⟨⟨hal, le_rfl, hle⟩, ⟨hlast, hle, le_rfl⟩, hfile⟩

/-- Opening the files of a checkpoint, when the earlier ones have been read. -/
theorem ReadTo.opened (hc : w.Checkpoint s.mCurrSeq)
    (hearlier : ∀ c, w.Checkpoint c → c < s.mCurrSeq → ∀ e ∈ w.verified.files c, P e) :
    w.ReadTo P (w.openCurrentInputFiles s) := by
  unfold openCurrentInputFiles
  rw [if_neg hc.le_last.not_gt]
  exact ⟨hc, ⟨[], rfl, nofun⟩, hearlier⟩

theorem ReadTo.start (P : LedgerHeaderHistoryEntry → Prop) (h : w.Accepted) (s : ApplyState) :
    w.ReadTo P (w.start s) :=
  .opened (s := w.onReset s) h.last.1 fun _ hc hlt => absurd hlt hc.first_le.not_gt

theorem ReadTo.endOfFile (h : w.ReadTo P s) (hin : s.mHdrIn = [])
    (hroom : w.mLastSeq.val + w.checkpointFrequency.val < 2 ^ 32) {t : ApplyState}
    (ht : t = w.openCurrentInputFiles { s with mCurrSeq := s.mCurrSeq + w.checkpointFrequency }) :
    w.onSuccess t = .WORK_RUNNING ∧ w.ReadTo P t ∨ w.onSuccess t = .WORK_SUCCESS ∧ w.AllRead P := by
  obtain ⟨-, hnext, hbefore⟩ := h.checkpoint.next hroom
  have hread : ∀ c, w.Checkpoint c → c < s.mCurrSeq + w.checkpointFrequency →
      ∀ e ∈ w.verified.files c, P e := by
    intro c hc hlt e he
    rcases (hbefore c hc hlt).lt_or_eq with hlt | rfl
    · exact h.earlier c hc hlt e he
    · obtain ⟨pre, hfile, hpre⟩ := h.file
      rw [hfile, hin, List.append_nil] at he
      exact hpre e he
  have hseq : t.mCurrSeq = s.mCurrSeq + w.checkpointFrequency := by
    rw [ht]
    unfold openCurrentInputFiles
    split_ifs <;> rfl
  unfold onSuccess
  rw [hseq]
  split_ifs with hover
  · exact .inr ⟨rfl, fun c hc => hread c hc (hc.le_last.trans_lt hover)⟩
  · refine .inl ⟨rfl, ?_⟩
    rw [ht]
    exact .opened (s := { s with mCurrSeq := s.mCurrSeq + w.checkpointFrequency })
      (hnext (not_lt.mp hover)) hread

@[simp] theorem openCurrentInputFiles_lm : (w.openCurrentInputFiles s).lm = s.lm := by
  unfold openCurrentInputFiles
  split_ifs <;> rfl

@[simp] theorem openCurrentInputFiles_mCurrSeq :
    (w.openCurrentInputFiles s).mCurrSeq = s.mCurrSeq := by
  unfold openCurrentInputFiles
  split_ifs <;> rfl

@[simp] theorem openCurrentInputFiles_failure :
    (w.openCurrentInputFiles s).failure = s.failure := by
  unfold openCurrentInputFiles
  split_ifs <;> rfl

@[simp] theorem openCurrentInputFiles_replayed :
    (w.openCurrentInputFiles s).replayed = s.replayed := by
  unfold openCurrentInputFiles
  split_ifs <;> rfl

/-! ## Attempts -/

/-- Read entries are behind the last closed ledger, or at it. -/
def Behind (lcl : Uint32) (e : LedgerHeaderHistoryEntry) : Prop :=
  (e.header.ledgerSeq + 1).val ≤ lcl.val + 1

def Before (lcl : Uint32) (e : LedgerHeaderHistoryEntry) : Prop :=
  (e.header.ledgerSeq + 1).val ≤ lcl.val

theorem behind_of_eq {lcl : Uint32} {e : LedgerHeaderHistoryEntry} (h : e.header.ledgerSeq = lcl) :
    Behind lcl e := by
  unfold Behind
  rw [h, Fin.val_add]
  exact Nat.mod_le _ _

theorem Before.behind {lcl : Uint32} {e : LedgerHeaderHistoryEntry} (h : Before lcl e) :
    Behind lcl e := Nat.le_succ_of_le h

def Matched (s : ApplyState) : Prop := ∀ p ∈ s.replayed, p.Matches

/-- The last ledger was closed with another hash than its header gives, and there is no way to read
past that header. -/
def Blocked (w : ApplyLedgerChainWork) (s : ApplyState) : Prop :=
  ∃ front p, s.replayed = front ++ [p] ∧ (∀ q ∈ front, q.Matches) ∧ ¬ p.Matches ∧
    p.lastClosed = s.lm.mLastClosedLedger ∧ p.seq = s.lm.lcl ∧
    w.FirstAt (Before s.lm.lcl) p.hHeader

/-- What holds of a work in any of its states. -/
def Inv (w : ApplyLedgerChainWork) (s : ApplyState) : WorkState → Prop
  | .WORK_RUNNING => Matched s ∧ w.ReadTo (Behind s.lm.lcl) s ∨
      w.Blocked s ∧ w.ReadTo (Before s.lm.lcl) s
  | .WORK_SUCCESS => Matched s ∧ w.AllRead (Behind s.lm.lcl)
  | .WORK_FAILURE_RETRY => Matched s ∨ w.Blocked s
  | .WORK_FAILURE_RAISE => False

theorem Blocked.same {t : ApplyState} (h : w.Blocked s)
    (hlast : t.lm.mLastClosedLedger = s.lm.mLastClosedLedger) (hsame : t.replayed = s.replayed) :
    w.Blocked t := by
  have hlcl : t.lm.lcl = s.lm.lcl := congrArg (fun e => e.header.ledgerSeq) hlast
  unfold Blocked at h ⊢
  rwa [hlast, hsame, hlcl]

theorem Matched.same {t : ApplyState} (h : Matched s) (hsame : t.replayed = s.replayed) :
    Matched t := by
  unfold Matched at h ⊢
  rwa [hsame]

theorem Matched.concat {t : ApplyState} {p : ReplayedLedger} (h : Matched s)
    (hreplayed : t.replayed = s.replayed ++ [p]) (hp : p.Matches) : Matched t := by
  intro q hq
  rw [hreplayed] at hq
  rcases List.mem_append.mp hq with hq | hq
  · exact h q hq
  · rw [List.mem_singleton.mp hq]
    exact hp

/-- A header that can be closed for is not blocked. -/
theorem Blocked.not_ahead {e : LedgerHeaderHistoryEntry} {rest : List LedgerHeaderHistoryEntry}
    (h : w.Blocked s) (hread : w.ReadTo (Before s.lm.lcl) s) (hin : s.mHdrIn = e :: rest)
    (hahead : s.lm.lcl < e.header.ledgerSeq + 1) :
    e.header.ledgerSeq = s.lm.lcl ∧ e.hash ≠ s.lm.mLastClosedLedger.hash := by
  obtain ⟨front, p, -, -, hmis, hlast, hseq, hfirst⟩ := h
  rcases hfirst.next hread hin with hbefore | rfl
  · exact absurd hahead hbefore.not_gt
  · refine ⟨hseq, fun heq => hmis ?_⟩
    rw [ReplayedLedger.Matches, hlast, heq]

theorem Inv.endOfFile {t : ApplyState}
    (hroom : w.mLastSeq.val + w.checkpointFrequency.val < 2 ^ 32) (h : w.Inv s .WORK_RUNNING)
    (hin : s.mHdrIn = [])
    (ht : t = w.openCurrentInputFiles { s with mCurrSeq := s.mCurrSeq + w.checkpointFrequency }) :
    w.Inv t (w.onSuccess t) := by
  have hlm : t.lm = s.lm := by rw [ht, openCurrentInputFiles_lm]
  have hsame : t.replayed = s.replayed := by rw [ht, openCurrentInputFiles_replayed]
  rcases h with ⟨hmatched, hread⟩ | ⟨hblocked, hread⟩ <;>
    rcases hread.endOfFile hin hroom ht with ⟨hon, hread'⟩ | ⟨hon, hall⟩ <;> rw [hon]
  · exact .inl ⟨hmatched.same hsame, by rwa [hlm]⟩
  · exact ⟨hmatched.same hsame, by rwa [hlm]⟩
  · exact .inr ⟨hblocked.same (by rw [hlm]) hsame, by rwa [hlm]⟩
  · obtain ⟨front, p, -, -, -, -, -, hfirst⟩ := hblocked
    exact absurd hall hfirst.not_allRead

/-- A header that is passed over. -/
theorem Inv.skipped {t : ApplyState} {e : LedgerHeaderHistoryEntry}
    {rest : List LedgerHeaderHistoryEntry} (h : w.Inv s .WORK_RUNNING) (hin : s.mHdrIn = e :: rest)
    (hbehind : e.header.ledgerSeq + 1 ≤ s.lm.lcl ∨
      e.header.ledgerSeq = s.lm.lcl ∧ e.hash = s.lm.mLastClosedLedger.hash)
    (ht : t = { s with mHdrIn := rest }) : w.Inv t .WORK_RUNNING := by
  subst ht
  rcases h with ⟨hmatched, hread⟩ | ⟨hblocked, hread⟩
  · refine .inl ⟨hmatched, hread.next hin ?_ rfl rfl⟩
    rcases hbehind with hbefore | ⟨heq, -⟩
    · exact Before.behind hbefore
    · exact behind_of_eq heq
  · refine .inr ⟨hblocked.same rfl rfl, hread.next hin ?_ rfl rfl⟩
    by_contra hnot
    have hahead : s.lm.lcl < e.header.ledgerSeq + 1 := not_le.mp hnot
    rcases hbehind with hbefore | ⟨-, heq⟩
    · exact hnot hbefore
    · exact (hblocked.not_ahead hread hin hahead).2 heq

/-- A ledger is only closed when no earlier one stands in the way. -/
theorem Inv.of_ahead {t : LedgerManager} {e : LedgerHeaderHistoryEntry}
    {rest : List LedgerHeaderHistoryEntry} (h : w.Inv s .WORK_RUNNING) (hin : s.mHdrIn = e :: rest)
    (hahead : s.lm.lcl < e.header.ledgerSeq + 1) (hnumbers : Ahead s.lm t e.header.ledgerSeq) :
    Matched s ∧ w.ReadTo (Before t.lcl) s := by
  rcases h with ⟨hmatched, hread⟩ | ⟨hblocked, hread⟩
  · refine ⟨hmatched, hread.mono (fun x hx => ?_) rfl rfl⟩
    unfold Before
    rw [hnumbers.lcl, hnumbers.here]
    exact hx
  · have heq := (hblocked.not_ahead hread hin hahead).1
    have hhere := hnumbers.here
    rw [heq] at hhere
    omega

/-- A ledger that was closed with another hash than its header gives. -/
theorem Blocked.mismatched {t : ApplyState} {e : LedgerHeaderHistoryEntry}
    {rest : List LedgerHeaderHistoryEntry} {txset : TxSetFrame} (hin : s.mHdrIn = e :: rest)
    (hmatched : Matched s) (hread : w.ReadTo (Before t.lm.lcl) s)
    (hnumbers : Ahead s.lm t.lm e.header.ledgerSeq)
    (hreplayed : t.replayed = s.replayed ++ [⟨e, txset, t.lm.mLastClosedLedger⟩])
    (hmis : t.lm.mLastClosedLedger.hash ≠ e.hash) : w.Blocked t := by
  refine ⟨s.replayed, _, hreplayed, hmatched, hmis, rfl, hnumbers.lcl.symm, ?_, ?_⟩
  · unfold Before
    rw [hnumbers.lcl, hnumbers.next]
    exact Nat.not_succ_le_self _
  · obtain ⟨pre, hfile, hpre⟩ := hread.file
    exact ⟨s.mCurrSeq, pre, rest, hread.checkpoint, by rw [hfile, hin], hpre, hread.earlier⟩

/-- The step of the invariant. -/
theorem Inv.advance {lm₀ : LedgerManager} {t : ApplyState} {r : WorkState}
    (hroom : w.mLastSeq.val + w.checkpointFrequency.val < 2 ^ 32) (hlog : w.Logged lm₀ s)
    (hinv : w.Inv s .WORK_RUNNING) (h : w.advance s = some (r, t)) :
    w.Logged lm₀ t ∧ w.Inv t r := by
  have ho := w.outcome s
  unfold ApplyLedgerChainWork.advance onRun at h
  have hcheckpoint : w.Checkpoint s.mCurrSeq := by
    rcases hinv with ⟨-, hread⟩ | ⟨-, hread⟩ <;> exact hread.checkpoint
  have hrunning : ∀ u : ApplyState, u.mCurrSeq = s.mCurrSeq → w.onSuccess u = .WORK_RUNNING := by
    intro u hu
    rw [onSuccess, hu, if_neg hcheckpoint.le_last.not_gt]
  generalize w.applyHistoryOfSingleLedger s = result at ho h
  have hidle : ∀ u : ApplyState, u.lm = s.lm → Idle s.lm u.lm := fun u hu => by
    rw [hu]
    exact ⟨rfl, rfl, rfl⟩
  cases ho with
  | endOfFile hin =>
    obtain ⟨hr, ht⟩ := Prod.mk.inj (Option.some.inj h)
    rw [ht] at hr
    have hlm : t.lm = s.lm := by rw [← ht, openCurrentInputFiles_lm]
    refine ⟨hlog.idle (hidle t hlm) (by rw [← ht, openCurrentInputFiles_replayed]), ?_⟩
    rw [← hr]
    exact hinv.endOfFile hroom hin ht.symm
  | skipped hin hbehind =>
    obtain ⟨hr, ht⟩ := Prod.mk.inj (Option.some.inj h)
    refine ⟨hlog.idle (hidle t (by rw [← ht])) (by rw [← ht]), ?_⟩
    rw [← hr, ht, hrunning t (by rw [← ht])]
    exact hinv.skipped hin hbehind ht.symm
  | @refused u e rest err hin caught why idle same =>
    simp only [caught, if_true] at h
    obtain ⟨hr, ht⟩ := Prod.mk.inj (Option.some.inj h)
    rw [← ht, ← hr]
    refine ⟨hlog.idle idle same, ?_⟩
    rcases hinv with ⟨hmatched, -⟩ | ⟨hblocked, -⟩
    · exact .inl (hmatched.same same)
    · exact .inr (hblocked.same idle.lastClosed same)
  | @closes u e rest txset d hin ahead current read seq hdrIn failure closed value replayed hash =>
    obtain ⟨hr, ht⟩ := Prod.mk.inj (Option.some.inj h)
    rw [← ht, ← hr, hrunning _ seq]
    have hnumbers := hlog.numbers ahead current closed
    obtain ⟨hmatched, hread⟩ := hinv.of_ahead hin ahead hnumbers
    obtain ⟨pre, hfile, -⟩ := hread.file
    refine ⟨hlog.closes hnumbers current closed value hread.checkpoint
      (by rw [hfile, hin]; simp) replayed, .inl ⟨hmatched.concat replayed hash, ?_⟩⟩
    refine (hread.mono (fun _ hx => Before.behind hx) rfl rfl).next hin ?_ seq hdrIn
    exact behind_of_eq hnumbers.lcl.symm
  | @mismatched u e rest d hin ahead current closed value replayed hmis =>
    simp only [ReplayError.isException, if_true] at h
    obtain ⟨hr, ht⟩ := Prod.mk.inj (Option.some.inj h)
    rw [← ht, ← hr]
    have hnumbers := hlog.numbers ahead current closed
    obtain ⟨hmatched, hread⟩ := hinv.of_ahead hin ahead hnumbers
    obtain ⟨pre, hfile, -⟩ := hread.file
    exact ⟨hlog.closes (t := { u with failure := some .mismatched }) hnumbers current closed value
        hread.checkpoint (by rw [hfile, hin]; simp) replayed,
      .inr (.mismatched (t := { u with failure := some .mismatched }) hin hmatched hread hnumbers
        replayed hmis)⟩

theorem Inv.start (haccepted : w.Accepted) (h : Matched s ∨ w.Blocked s) :
    w.Inv (w.start s) .WORK_RUNNING := by
  have hlm : (w.start s).lm = s.lm := by
    rw [ApplyLedgerChainWork.start, openCurrentInputFiles_lm]
    rfl
  have hsame : (w.start s).replayed = s.replayed := by
    rw [ApplyLedgerChainWork.start, openCurrentInputFiles_replayed]
    rfl
  rcases h with hmatched | hblocked
  · exact .inl ⟨hmatched.same hsame, .start _ haccepted s⟩
  · exact .inr ⟨hblocked.same (by rw [hlm]) hsame, .start _ haccepted s⟩

theorem Logged.start {lm₀ : LedgerManager} (h : w.Logged lm₀ s) : w.Logged lm₀ (w.start s) := by
  have hlm : (w.start s).lm = s.lm := by
    rw [ApplyLedgerChainWork.start, openCurrentInputFiles_lm]
    rfl
  refine h.idle ?_ ?_
  · rw [hlm]
    exact ⟨rfl, rfl, rfl⟩
  · rw [ApplyLedgerChainWork.start, openCurrentInputFiles_replayed]
    rfl

/-- The invariant holds of every state, whatever has failed before. -/
theorem Reached.inv {lm : LedgerManager} {r : WorkState} (haccepted : w.Accepted)
    (hroom : w.mLastSeq.val + w.checkpointFrequency.val < 2 ^ 32)
    (hcurrent : lm.mCurrentLedger.ledgerSeq = lm.lcl + 1) (h : w.Reached lm r s) :
    w.Logged lm s ∧ w.Inv s r := by
  induction h with
  | start =>
    have hlog : w.Logged lm (w.create lm) :=
      ⟨hcurrent, rfl, (List.append_nil _).symm, rfl, nofun, nofun, nofun⟩
    exact ⟨hlog.start, .start haccepted (.inl nofun)⟩
  | advance hs h ih => exact ih.2.advance hroom ih.1 h
  | retry hs ih => exact ⟨ih.1.start, .start haccepted ih.2⟩

theorem Reached.attempt {lm : LedgerManager} {n : ℕ} {r : WorkState} {t : ApplyState}
    (h : w.Reached lm .WORK_RUNNING s) (ht : w.attempt n s = some (r, t)) : w.Reached lm r t := by
  induction n generalizing s with
  | zero =>
    obtain ⟨rfl, rfl⟩ := Prod.mk.inj (Option.some.inj ht)
    exact h
  | succ n ih =>
    rw [ApplyLedgerChainWork.attempt] at ht
    split at ht
    · rename_i u hu
      exact ih (h.advance hu) ht
    · exact h.advance ht

/-! ## The end of an attempt -/

/-- A step that does not end the attempt reads an entry or goes to the next file. -/
theorem ReadTo.advance {t : ApplyState} {r : WorkState}
    (hroom : w.mLastSeq.val + w.checkpointFrequency.val < 2 ^ 32) (h : w.ReadTo (fun _ => True) s)
    (ht : w.advance s = some (r, t)) : r ≠ .WORK_RUNNING ∨ w.ReadTo (fun _ => True) t ∧
      (t.mCurrSeq = s.mCurrSeq ∧ t.mHdrIn.length < s.mHdrIn.length ∨ s.mCurrSeq < t.mCurrSeq) := by
  have ho := w.outcome s
  unfold ApplyLedgerChainWork.advance onRun at ht
  generalize w.applyHistoryOfSingleLedger s = result at ho ht
  cases ho with
  | endOfFile hin =>
    obtain ⟨hr, ht⟩ := Prod.mk.inj (Option.some.inj ht)
    rw [ht] at hr
    rcases h.endOfFile hin hroom ht.symm with ⟨-, hread⟩ | ⟨hon, -⟩
    · refine .inr ⟨hread, .inr ?_⟩
      obtain ⟨hval, -⟩ := h.checkpoint.next hroom
      rw [← ht, openCurrentInputFiles_mCurrSeq, Fin.lt_def, hval]
      rcases w.freq_cases with hf | hf <;> rw [hf] <;> exact Nat.lt_add_of_pos_right (by decide)
    · rw [← hr, hon]
      exact .inl nofun
  | skipped hin hbehind =>
    obtain ⟨-, ht⟩ := Prod.mk.inj (Option.some.inj ht)
    refine .inr ⟨h.next hin trivial (by rw [← ht]) (by rw [← ht]), .inl ⟨by rw [← ht], ?_⟩⟩
    rw [← ht, hin]
    exact Nat.lt_succ_self _
  | refused hin caught why idle same =>
    simp only [caught, if_true] at ht
    rw [← (Prod.mk.inj (Option.some.inj ht)).1]
    exact .inl nofun
  | closes hin ahead current read seq hdrIn failure closed value replayed hmatch =>
    obtain ⟨-, rfl⟩ := Prod.mk.inj (Option.some.inj ht)
    refine .inr ⟨h.next hin trivial seq hdrIn, .inl ⟨seq, ?_⟩⟩
    rw [hdrIn, hin]
    exact Nat.lt_succ_self _
  | mismatched hin ahead current closed value replayed hmis =>
    simp only [ReplayError.isException, if_true] at ht
    rw [← (Prod.mk.inj (Option.some.inj ht)).1]
    exact .inl nofun

theorem exists_advance (w : ApplyLedgerChainWork) (s : ApplyState) :
    ∃ r t, w.advance s = some (r, t) := by
  have ho := w.outcome s
  unfold ApplyLedgerChainWork.advance onRun
  generalize w.applyHistoryOfSingleLedger s = result at ho
  cases ho with
  | refused hin caught =>
    simp only [caught, if_true]
    exact ⟨_, _, rfl⟩
  | _ => exact ⟨_, _, rfl⟩

theorem attempt_ends (hroom : w.mLastSeq.val + w.checkpointFrequency.val < 2 ^ 32)
    (h : w.ReadTo (fun _ => True) s) :
    ∃ n r t, w.attempt n s = some (r, t) ∧ r ≠ .WORK_RUNNING := by
  -- each step leaves fewer files, or as many files and fewer entries
  induction hfiles : 2 ^ 32 - s.mCurrSeq.val using Nat.strong_induction_on generalizing s with
  | _ k ihFiles =>
    induction hentries : s.mHdrIn.length using Nat.strong_induction_on generalizing s with
    | _ m ihEntries =>
      obtain ⟨r, t, ht⟩ := w.exists_advance s
      by_cases hr : r = .WORK_RUNNING
      · subst hr
        have hrest : ∃ n r u, w.attempt n t = some (r, u) ∧ r ≠ .WORK_RUNNING := by
          rcases h.advance hroom ht with hne | ⟨hread, ⟨hseq, hlt⟩ | hlt⟩
          · exact absurd rfl hne
          · exact ihEntries _ (hentries ▸ hlt) hread (by rw [hseq, hfiles]) rfl
          · refine ihFiles _ ?_ hread rfl
            have := t.mCurrSeq.isLt
            rw [Fin.lt_def] at hlt
            omega
        obtain ⟨n, r, u, hrun, hr⟩ := hrest
        refine ⟨n + 1, r, u, ?_, hr⟩
        rw [ApplyLedgerChainWork.attempt, ht]
        exact hrun
      · refine ⟨1, r, t, ?_, hr⟩
        rw [ApplyLedgerChainWork.attempt, ht]
        cases r with
        | WORK_RUNNING => exact absurd rfl hr
        | _ => rfl

theorem Inv.readTo (h : w.Inv s .WORK_RUNNING) : w.ReadTo (Behind s.lm.lcl) s := by
  rcases h with ⟨-, hread⟩ | ⟨-, hread⟩
  · exact hread
  · exact hread.mono (fun _ he => he.behind) rfl rfl

theorem Inv.dropLast {r : WorkState} (h : w.Inv s r) : ∀ p ∈ s.replayed.dropLast, p.Matches := by
  have hall : Matched s ∨ w.Blocked s := by
    cases r with
    | WORK_RUNNING => exact h.imp (·.1) (·.1)
    | WORK_SUCCESS => exact .inl h.1
    | WORK_FAILURE_RETRY => exact h
    | WORK_FAILURE_RAISE => exact h.elim
  rcases hall with hmatched | ⟨front, p, hreplayed, hfront, -⟩
  · exact fun q hq => hmatched q (List.dropLast_subset _ hq)
  · rwa [hreplayed, List.dropLast_concat]

/-! ## Prehistory -/

/-- A header at or before the last closed ledger moves the stream of headers on, no more. -/
theorem wp_prehistory {e : LedgerHeaderHistoryEntry} {rest : List LedgerHeaderHistoryEntry}
    (hin : s.mHdrIn = e :: rest) (hle : e.header.ledgerSeq ≤ s.lm.lcl) :
    wp w.applyHistoryOfSingleLedger (fun more t => more = true ∧ t = { s with mHdrIn := rest })
      (fun _ t => t = { s with mHdrIn := rest }) s := by
  unfold applyHistoryOfSingleLedger
  rw [wp_bind, wp_get]
  simp only [hin]
  rw [wp_bind, wp_set]
  split_ifs with hold hprev hlast
  · exact ⟨rfl, rfl⟩
  · rw [wp_bind, wp_require]
    exact ⟨fun _ => ⟨rfl, rfl⟩, fun _ => rfl⟩
  · rw [wp_bind, wp_require]
    exact ⟨fun _ => ⟨rfl, rfl⟩, fun _ => rfl⟩
  · have hlt : e.header.ledgerSeq < s.lm.lcl := lt_of_le_of_ne hle hlast
    have hahead : s.lm.lcl < e.header.ledgerSeq + 1 :=
      lt_of_le_of_ne (not_lt.mp hold) (Ne.symm hprev)
    exact absurd (Fin.add_one_le_of_lt hlt) hahead.not_ge

/-! ## The last ledger -/

/-- A work that succeeds has closed the ledgers asked for exactly if no header is beyond them. -/
theorem Logged.exact_iff {lm : LedgerManager} (h : w.Logged lm s) (haccepted : w.Accepted)
    (hroom : w.mLastSeq.val + w.checkpointFrequency.val < 2 ^ 32)
    (hall : w.AllRead (Behind s.lm.lcl)) :
    s.replayed.map (fun p => p.seq.val) =
        List.range' (lm.lcl.val + 1) (w.mLastSeq.val - lm.lcl.val) ↔
      w.NothingBeyond lm.lcl := by
  have hlcl := h.lcl
  have hreached : w.mLastSeq.val ≤ s.lm.lcl.val := by
    obtain ⟨-, hc, e, he, hseq⟩ := haccepted.last
    have hbehind := hall _ hc e he
    unfold Behind at hbehind
    rw [hseq, Fin.val_add] at hbehind
    simp only [Fin.val_one] at hbehind
    rcases w.freq_cases with hf | hf <;> rw [hf] at hroom <;> simp at hroom hbehind <;> omega
  rw [h.inOrder]
  constructor
  · intro heq c hc e he
    have hlen := congrArg List.length heq
    simp only [List.length_range'] at hlen
    have hbehind := hall c hc e he
    unfold Behind at hbehind
    omega
  · intro hbeyond
    congr 1
    by_cases hnil : s.replayed.length = 0
    · omega
    · have hmem : s.lm.lcl.val ∈ s.replayed.map (fun p => p.seq.val) := by
        rw [h.inOrder, List.mem_range'_1]
        omega
      obtain ⟨p, hp, hseq⟩ := List.mem_map.mp hmem
      obtain ⟨c, hc, hfile⟩ := h.files p hp
      have hle := hbeyond c hc _ hfile
      have hahead := h.ahead p hp
      change (p.seq + 1).val ≤ _ at hle
      omega

/-! ## The stream of transaction sets -/

/-- What the loop passes over, where it stops, and what it answers. -/
theorem readTxSets_ok {seq : Uint32} {entry entry' : TransactionHistoryEntry}
    {rest : List TransactionHistoryEntry} {mTxIn : List (Option TransactionHistoryEntry)}
    {txset : Option TxSetFrame}
    (h : readTxSets seq entry (rest.map some) = .ok (txset, entry', mTxIn)) :
    ∃ passed rest', mTxIn = rest'.map some ∧ entry :: rest = passed ++ entry' :: rest' ∧
      (∀ t ∈ passed, t.ledgerSeq < seq) ∧
      (txset = some entry'.txSet ∧ entry'.ledgerSeq = seq ∨
        txset = none ∧ (seq < entry'.ledgerSeq ∨ entry'.ledgerSeq < seq ∧ rest' = [])) := by
  induction rest generalizing entry with
  | nil =>
    unfold readTxSets at h
    split_ifs at h with hlt hgt <;> obtain ⟨rfl, rfl, rfl⟩ := h
    · exact ⟨[], [], rfl, rfl, nofun, .inr ⟨rfl, .inr ⟨hlt, rfl⟩⟩⟩
    · exact ⟨[], [], rfl, rfl, nofun, .inr ⟨rfl, .inl hgt⟩⟩
    · exact ⟨[], [], rfl, rfl, nofun, .inl ⟨rfl, le_antisymm (not_lt.mp hgt) (not_lt.mp hlt)⟩⟩
  | cons next rest ih =>
    unfold readTxSets at h
    split_ifs at h with hlt hgt
    · obtain ⟨passed, rest', hin, heq, hpassed, hend⟩ := ih h
      refine ⟨entry :: passed, rest', hin, by rw [heq]; rfl, ?_, hend⟩
      intro t ht
      rcases List.mem_cons.mp ht with rfl | ht
      · exact hlt
      · exact hpassed t ht
    · obtain ⟨rfl, rfl, rfl⟩ := h
      exact ⟨[], next :: rest, rfl, rfl, nofun, .inr ⟨rfl, .inl hgt⟩⟩
    · obtain ⟨rfl, rfl, rfl⟩ := h
      exact ⟨[], next :: rest, rfl, rfl, nofun,
        .inl ⟨rfl, le_antisymm (not_lt.mp hgt) (not_lt.mp hlt)⟩⟩

/-- The entries before the one at hand are for closed ledgers. The file is read as if it began with
the entry that the source starts from. -/
def TxReadTo (w : ApplyLedgerChainWork) (l : List TransactionHistoryEntry) (s : ApplyState) :
    Prop :=
  ∃ old rest, w.emptyTxHistoryEntry :: l = old ++ s.mTxHistoryEntry :: rest ∧
    s.mTxIn = rest.map some ∧ ∀ t ∈ old, t.ledgerSeq ≤ s.lm.lcl

/-- The set found for a header is the right one. -/
theorem Holds.found {c : Uint32} {l : List TransactionHistoryEntry} {e : LedgerHeaderHistoryEntry}
    {old rest : List TransactionHistoryEntry} {entry : TransactionHistoryEntry}
    {txset : Option TxSetFrame} {pre post : List LedgerHeaderHistoryEntry} (h : w.Holds c l)
    (hl : w.emptyTxHistoryEntry :: l = old ++ entry :: rest)
    (hold : ∀ t ∈ old, t.ledgerSeq < e.header.ledgerSeq)
    (hend : txset = some entry.txSet ∧ entry.ledgerSeq = e.header.ledgerSeq ∨
      txset = none ∧ (e.header.ledgerSeq < entry.ledgerSeq ∨
        entry.ledgerSeq < e.header.ledgerSeq ∧ rest = []))
    (hpos : 0 < e.header.ledgerSeq) (hfile : w.verified.files c = pre ++ e :: post)
    (hle : e.header.ledgerSeq ≤ c) (hpre : ∀ x ∈ pre, x.header.ledgerSeq ≠ e.header.ledgerSeq) :
    (txset.getD (w.emptyTxSet e.header.previousLedgerHash)).getContentsHash =
      e.header.scpValue.txSetHash := by
  have hright := h.right pre e post hfile hle hpre
  -- a later entry is for a later ledger, unless it is the one the source starts from
  have hlater : e.header.ledgerSeq ≤ entry.ledgerSeq →
      entry ∈ l ∧ ∀ t ∈ rest, entry.ledgerSeq < t.ledgerSeq := by
    intro hge
    rcases old with - | ⟨t, old⟩
    · rw [← (List.cons.inj hl).1] at hge
      exact absurd hpos hge.not_gt
    · have hl' : l = old ++ entry :: rest := (List.cons.inj hl).2
      have hasc := h.ascending
      rw [hl', List.pairwise_append] at hasc
      exact ⟨by rw [hl']; simp, (List.pairwise_cons.mp hasc.2.1).1⟩
  rcases hend with ⟨rfl, hseq⟩ | ⟨rfl, hnone⟩
  · obtain ⟨hmem, -⟩ := hlater hseq.ge
    rcases hright with ⟨t, ht, htseq, hset⟩ | ⟨hno, -⟩
    · have hnodup : (l.map TransactionHistoryEntry.ledgerSeq).Nodup :=
        List.pairwise_map.mpr (h.ascending.imp ne_of_lt)
      have heq := List.inj_on_of_nodup_map hnodup ht hmem (htseq.trans hseq.symm)
      rw [← heq]
      exact hset
    · exact absurd hseq (hno entry hmem)
  · rcases hright with ⟨t, ht, htseq, -⟩ | ⟨-, hempty⟩
    · exfalso
      have hmem : t ∈ old ++ entry :: rest := by
        rw [← hl]
        exact List.mem_cons_of_mem _ ht
      rcases List.mem_append.mp hmem with hmem | hmem
      · exact (hold t hmem).ne htseq
      rcases hnone with hgt | ⟨hlt, rfl⟩
      · rcases List.mem_cons.mp hmem with rfl | hmem
        · exact hgt.ne' htseq
        · exact ((hgt.trans ((hlater hgt.le).2 t hmem)).ne') htseq
      · rw [List.mem_singleton.mp hmem] at htseq
        exact hlt.ne htseq
    · exact hempty.symm

theorem TxReadTo.read {l : List TransactionHistoryEntry} {seq : Uint32}
    {txset : Option TxSetFrame} {entry : TransactionHistoryEntry}
    {mTxIn : List (Option TransactionHistoryEntry)} (h : w.TxReadTo l s)
    (hseq : s.lm.lcl < seq)
    (hread : readTxSets seq s.mTxHistoryEntry s.mTxIn = .ok (txset, entry, mTxIn)) :
    ∃ old rest, w.emptyTxHistoryEntry :: l = old ++ entry :: rest ∧ mTxIn = rest.map some ∧
      (∀ t ∈ old, t.ledgerSeq < seq) ∧
      (txset = some entry.txSet ∧ entry.ledgerSeq = seq ∨
        txset = none ∧ (seq < entry.ledgerSeq ∨ entry.ledgerSeq < seq ∧ rest = [])) := by
  obtain ⟨old, rest, hl, hin, hold⟩ := h
  rw [hin] at hread
  obtain ⟨passed, rest', hin', heq, hpassed, hend⟩ := readTxSets_ok hread
  refine ⟨old ++ passed, rest', ?_, hin', ?_, hend⟩
  · rw [hl, heq, List.append_assoc]
  · intro t ht
    rcases List.mem_append.mp ht with ht | ht
    · exact (hold t ht).trans_lt hseq
    · exact hpassed t ht

theorem TxReadTo.opened {l : List TransactionHistoryEntry} (hle : ¬ w.mLastSeq < s.mCurrSeq)
    (h : w.Holds s.mCurrSeq l) : w.TxReadTo l (w.openCurrentInputFiles s) := by
  unfold openCurrentInputFiles
  rw [if_neg hle]
  exact ⟨[], l, rfl, h.file, nofun⟩

/-- The check of the transaction sets has not failed, and their stream is where it should be. -/
structure InStep (w : ApplyLedgerChainWork) (s : ApplyState) (r : WorkState) : Prop where
  failure : s.failure ≠ some .txSetHash
  stream : r = .WORK_RUNNING → ∃ l, w.Holds s.mCurrSeq l ∧ w.TxReadTo l s

/-- Before a header that is closed for, its file has no other header for that ledger. -/
theorem ReadTo.first {e : LedgerHeaderHistoryEntry} {rest : List LedgerHeaderHistoryEntry}
    (h : w.ReadTo (Behind s.lm.lcl) s) (hown : w.InOwnFiles)
    (hroom : w.mLastSeq.val + w.checkpointFrequency.val < 2 ^ 32)
    (hin : s.mHdrIn = e :: rest) (hseq : e.header.ledgerSeq.val = s.lm.lcl.val + 1) :
    ∃ pre, w.verified.files s.mCurrSeq = pre ++ e :: rest ∧
      ∀ x ∈ pre, x.header.ledgerSeq ≠ e.header.ledgerSeq := by
  obtain ⟨pre, hfile, hpre⟩ := h.file
  refine ⟨pre, by rw [hfile, hin], fun x hx heq => ?_⟩
  have hbehind := hpre x hx
  have hle : x.header.ledgerSeq.val ≤ s.mCurrSeq.val :=
    hown _ h.checkpoint x (by rw [hfile]; exact List.mem_append_left _ hx)
  have hlast : s.mCurrSeq.val ≤ w.mLastSeq.val := h.checkpoint.le_last
  unfold Behind at hbehind
  rw [heq] at hbehind hle
  rw [Fin.val_add] at hbehind
  simp only [Fin.val_one] at hbehind
  rcases w.freq_cases with hf | hf <;> rw [hf] at hroom <;> simp at hroom hbehind <;> omega

theorem InStep.advance {lm₀ : LedgerManager} {t : ApplyState} {r : WorkState}
    (hown : w.InOwnFiles) (hright : w.RightTransactions)
    (hroom : w.mLastSeq.val + w.checkpointFrequency.val < 2 ^ 32) (hlog : w.Logged lm₀ s)
    (hinv : w.Inv s .WORK_RUNNING) (hstep : w.InStep s .WORK_RUNNING)
    (h : w.advance s = some (r, t)) : w.InStep t r := by
  have hinv' := (hinv.advance hroom hlog h).2
  have hread := hinv.readTo
  obtain ⟨l, hholds, htx⟩ := hstep.stream rfl
  have ho := w.outcome s
  unfold ApplyLedgerChainWork.advance onRun at h
  generalize w.applyHistoryOfSingleLedger s = result at ho h
  cases ho with
  | endOfFile hin =>
    obtain ⟨hr, ht⟩ := Prod.mk.inj (Option.some.inj h)
    refine ⟨by rw [← ht, openCurrentInputFiles_failure]; exact hstep.failure, fun hrun => ?_⟩
    rw [hrun] at hinv'
    have hc := hinv'.readTo.checkpoint
    obtain ⟨l, hholds⟩ := hright _ hc
    refine ⟨l, hholds, ?_⟩
    rw [← ht, openCurrentInputFiles_mCurrSeq] at hc hholds
    rw [← ht]
    exact .opened hc.le_last.not_gt hholds
  | skipped hin hbehind =>
    obtain ⟨-, rfl⟩ := Prod.mk.inj (Option.some.inj h)
    exact ⟨hstep.failure, fun _ => ⟨l, hholds, htx⟩⟩
  | @refused u e rest err hin caught why idle same =>
    simp only [caught, if_true] at h
    obtain ⟨rfl, rfl⟩ := Prod.mk.inj (Option.some.inj h)
    refine ⟨fun hfailure => ?_, nofun⟩
    -- the check fails only for a wrong set
    obtain ⟨hahead, hcurrent, -, txset, entry, mTxIn, hsets, hne⟩ := why (Option.some.inj hfailure)
    have hseq := (hlog.next hahead hcurrent).1
    have hlt : s.lm.lcl < e.header.ledgerSeq := by
      rw [Fin.lt_def, hseq]
      exact Nat.lt_succ_self _
    obtain ⟨pre, hfile, hpre⟩ := hread.first hown hroom hin hseq
    obtain ⟨old, rest', hl, -, hold, hend⟩ := htx.read hlt hsets
    exact hne (hholds.found hl hold hend (lt_of_le_of_lt (Fin.zero_le _) hlt) hfile
      (hown _ hread.checkpoint e (by rw [hfile]; simp)) hpre)
  | @closes u e rest txset d hin ahead current read seq hdrIn failure closed value replayed hash =>
    obtain ⟨-, rfl⟩ := Prod.mk.inj (Option.some.inj h)
    have hnumbers := hlog.numbers ahead current closed
    have hlt : s.lm.lcl < e.header.ledgerSeq := by
      rw [Fin.lt_def, hnumbers.here]
      exact Nat.lt_succ_self _
    obtain ⟨old, rest', hl, hin', hold, -⟩ := htx.read hlt read
    refine ⟨by rw [failure]; exact hstep.failure,
      fun _ => ⟨l, by rwa [seq], old, rest', hl, hin', ?_⟩⟩
    intro x hx
    rw [hnumbers.lcl]
    exact (hold x hx).le
  | mismatched hin ahead current closed value replayed hmis =>
    simp only [ReplayError.isException, if_true] at h
    obtain ⟨rfl, rfl⟩ := Prod.mk.inj (Option.some.inj h)
    exact ⟨by simp, nofun⟩

theorem InStep.start {r : WorkState} (haccepted : w.Accepted) (hright : w.RightTransactions)
    (h : w.InStep s r) : w.InStep (w.start s) .WORK_RUNNING := by
  have hc := haccepted.last.1
  have hseq : (w.start s).mCurrSeq = w.mFirstSeq := openCurrentInputFiles_mCurrSeq
  obtain ⟨l, hholds⟩ := hright _ hc
  refine ⟨?_, fun _ => ⟨l, by rwa [hseq], .opened (s := w.onReset s) hc.le_last.not_gt hholds⟩⟩
  rw [ApplyLedgerChainWork.start, openCurrentInputFiles_failure]
  exact h.failure

theorem Reached.inStep {lm : LedgerManager} {r : WorkState} (haccepted : w.Accepted)
    (hroom : w.mLastSeq.val + w.checkpointFrequency.val < 2 ^ 32)
    (hcurrent : lm.mCurrentLedger.ledgerSeq = lm.lcl + 1) (hown : w.InOwnFiles)
    (hright : w.RightTransactions) (h : w.Reached lm r s) : w.InStep s r := by
  induction h with
  | start =>
    have hcreate : w.InStep (w.create lm) .WORK_SUCCESS := ⟨nofun, nofun⟩
    exact hcreate.start haccepted hright
  | advance hs h ih =>
    obtain ⟨hlog, hinv⟩ := hs.inv haccepted hroom hcurrent
    exact ih.advance hown hright hroom hlog hinv h
  | retry hs ih => exact ih.start haccepted hright

end ApplyLedgerChainWork

/-- **A replay closes the missing ledgers**, and, when it succeeds, those up to the last one asked
for, if and only if no header is beyond it. The header files are any that the verification accepts,
the transaction files any at all, and any number of attempts may have failed midway. -/
theorem replay_exact (w : ApplyLedgerChainWork) (lm : LedgerManager) (r : WorkState)
    (t : ApplyState) (haccepted : w.Accepted) (hroom : w.mLastSeq.val + w.checkpointFrequency.val < 2 ^ 32)
    (hcurrent : lm.mCurrentLedger.ledgerSeq = lm.lcl + 1) (h : w.Reached lm r t) :
    -- the ledgers after the last closed one are closed, each once and in order
    (closed t.lm.log = closed lm.log ++ t.replayed.map ReplayedLedger.seq ∧
      t.replayed.map (fun p => p.seq.val) =
        List.range' (lm.lcl.val + 1) t.replayed.length) ∧
    -- each for a header of the files, and with the transaction set that this header names
    (∀ p ∈ t.replayed, (∃ c, w.Checkpoint c ∧ p.hHeader ∈ w.verified.files c) ∧
      p.txset.getContentsHash = p.hHeader.header.scpValue.txSetHash) ∧
    -- it then has the hash this header gives, or else it is the last one and the work fails
    ((∀ p ∈ t.replayed.dropLast, p.Matches) ∧ (r = .WORK_SUCCESS → ∀ p ∈ t.replayed, p.Matches)) ∧
    -- a header at or before the last closed ledger has no effect
    (∀ e rest, t.mHdrIn = e :: rest → e.header.ledgerSeq ≤ t.lm.lcl →
      wp w.applyHistoryOfSingleLedger (fun more u => more = true ∧ u = { t with mHdrIn := rest })
        (fun _ u => u = { t with mHdrIn := rest }) t) ∧
    -- each attempt ends
    (r = .WORK_RUNNING → ∃ n r' u, w.attempt n t = some (r', u) ∧ r' ≠ .WORK_RUNNING) ∧
    -- success means that exactly the ledgers asked for are closed
    (r = .WORK_SUCCESS →
      (t.replayed.map (fun p => p.seq.val) =
          List.range' (lm.lcl.val + 1) (w.mLastSeq.val - lm.lcl.val) ↔ w.NothingBeyond lm.lcl)) ∧
    -- with the right transaction files, their check does not fail
    (w.InOwnFiles → w.RightTransactions → t.failure ≠ some .txSetHash) := by
  obtain ⟨hlog, hinv⟩ := h.inv haccepted hroom hcurrent
  refine ⟨⟨hlog.closed, hlog.inOrder⟩, fun p hp => ⟨hlog.files p hp, hlog.sets p hp⟩,
    ⟨hinv.dropLast, ?_⟩, fun e rest hin hle => ApplyLedgerChainWork.wp_prehistory hin hle,
    ?_, ?_, fun hown hright => (h.inStep haccepted hroom hcurrent hown hright).failure⟩
  · rintro rfl
    exact hinv.1
  · rintro rfl
    exact ApplyLedgerChainWork.attempt_ends hroom (hinv.readTo.mono (fun _ _ => trivial) rfl rfl)
  · rintro rfl
    exact hlog.exact_iff haccepted hroom hinv.2

/-! ## A file that goes on after its checkpoint -/

/-- A ledger without transactions, after another. -/
def emptyLedger (previousLedgerHash : Hash) (ledgerSeq : Uint32) : LedgerHeaderHistoryEntry :=
  let header : LedgerHeader :=
    { previousLedgerHash := previousLedgerHash
      scpValue := ⟨0, 0⟩
      bucketListHash := 1
      ledgerSeq := ledgerSeq }
  ⟨pairHash header, header⟩

def ledger62 : LedgerHeaderHistoryEntry := emptyLedger 0 62

def ledger63 : LedgerHeaderHistoryEntry := emptyLedger ledger62.hash 63

def ledger64 : LedgerHeaderHistoryEntry := emptyLedger ledger63.hash 64

/-- A node that has closed ledger 62, and hears from the network of ledger 64. -/
def managerAt62 : LedgerManager where
  mState := .LM_CATCHING_UP_STATE
  mLastClosedLedger := ledger62
  mCurrentLedger := Application.nextHeader ledger62
  mSyncingLedgers := [⟨64, ⟨ledger63.hash, 0⟩, ⟨0, 0⟩, rfl⟩]

/-- The node catches up to ledger 63. -/
def replayTo63 (file : List LedgerHeaderHistoryEntry) : ApplyLedgerChainWork where
  app := ⟨true, 0, pairHash, fun _ _ => some (1, 0)⟩
  verified :=
    { sha256 := pairHash
      accelerated := false
      files := fun c => if c = 63 then file else []
      mFirstLedger := 63
      mLastSeq := 63
      mManualCatchup := false
      lastClosed := ledger62
      ledgerManager := managerAt62 }
  transactions _ := []
  emptyTxSetHash _ := 0

/-- What a work has closed after an attempt of `n` steps. -/
def closedBy (w : ApplyLedgerChainWork) (lm : LedgerManager) (n : ℕ) :
    Option (WorkState × List Uint32) :=
  (w.attempt n (w.start (w.create lm))).map fun p => (p.1, closed p.2.lm.log)

theorem reached_of_closedBy {w : ApplyLedgerChainWork} (lm : LedgerManager) {n : ℕ} {r : WorkState}
    {l : List Uint32} (h : closedBy w lm n = some (r, l)) :
    ∃ t, w.Reached lm r t ∧ closed t.lm.log = l := by
  obtain ⟨⟨r', t⟩, ht, heq⟩ := Option.map_eq_some_iff.mp h
  obtain ⟨rfl, rfl⟩ := Prod.mk.inj heq
  exact ⟨t, ApplyLedgerChainWork.Reached.start.attempt ht, rfl⟩

theorem accepted_of_attempt {w : ApplyLedgerChainWork} {n : ℕ}
    (lastVerified : LedgerHeaderHistoryEntry)
    (h : (w.verified.attempt n (w.verified.onReset emptyEntry lastVerified)).map Prod.fst =
      some .WORK_SUCCESS) : w.Accepted := by
  obtain ⟨⟨r, t⟩, ht, rfl⟩ := Option.map_eq_some_iff.mp h
  exact ⟨n, emptyEntry, lastVerified, t, ht⟩

/-- The node closes ledgers 62 and 63. There are transactions for the first one only. -/
def replayFrom61 : ApplyLedgerChainWork :=
  { replayTo63 [] with
    verified := catchupFrom61
    transactions := fun c => if c = 63 then [some ⟨62, ⟨61, 7⟩⟩] else [] }

theorem files_replayFrom61 {c : Uint32} {e : LedgerHeaderHistoryEntry}
    (h : e ∈ replayFrom61.verified.files c) :
    c = 63 ∧ (e = headerOf 61 ∨ e = paying62 ∨ e = following63) := by
  change e ∈ if c = 63 then [headerOf 61, paying62, following63] else [] at h
  split_ifs at h with hc
  · simpa [hc] using h
  · cases h

theorem rightTransactions_replayFrom61 : replayFrom61.RightTransactions := by
  intro c _
  by_cases hc : c = 63
  · refine ⟨[⟨62, ⟨61, 7⟩⟩], if_pos hc, List.pairwise_singleton _ _,
      fun pre e post hfile _ _ => ?_⟩
    obtain ⟨-, rfl | rfl | rfl⟩ := files_replayFrom61 (c := c) (e := e) (by simp [hfile]) <;>
      decide +kernel
  · refine ⟨[], if_neg hc, .nil, fun pre e post hfile => ?_⟩
    exact absurd (files_replayFrom61 (c := c) (e := e) (by simp [hfile])).1 hc

theorem replay_exact_replayFrom61 :
    ∃ t, replayFrom61.Reached catchupFrom61.ledgerManager .WORK_SUCCESS t ∧
      closed t.lm.log = [62, 63] ∧ t.replayed.map (fun p => p.seq.val) = [62, 63] ∧
      t.failure ≠ some .txSetHash := by
  obtain ⟨t, ht, hclosed⟩ := reached_of_closedBy (w := replayFrom61) (n := 5)
    (r := .WORK_SUCCESS) (l := [62, 63]) catchupFrom61.ledgerManager (by decide +kernel)
  obtain ⟨-, -, -, -, -, hexact, htxs⟩ := replay_exact _ _ _ t
    (accepted_of_attempt (n := 1) (headerOf 61) (by decide +kernel))
    (by decide +kernel) (by decide +kernel) ht
  refine ⟨t, ht, hclosed, (hexact rfl).mpr fun c _ e he => ?_, htxs (fun c _ e he => ?_)
    rightTransactions_replayFrom61⟩ <;>
  · obtain ⟨rfl, rfl | rfl | rfl⟩ := files_replayFrom61 he <;> decide +kernel

/-- The header file ends with ledger 63 as it should, but has ledger 64 before that. The work closes
ledger 64, although it was asked for ledger 63. -/
theorem replay_beyond_last :
    Function.Injective pairHash ∧ (replayTo63 [ledger63, ledger64, ledger63]).Accepted ∧
    managerAt62.lcl = 62 ∧ (replayTo63 [ledger63, ledger64, ledger63]).mLastSeq = 63 ∧
    ∃ t, (replayTo63 [ledger63, ledger64, ledger63]).Reached managerAt62 .WORK_SUCCESS t ∧
      closed t.lm.log = [63, 64] :=
  ⟨pairHash_injective, accepted_of_attempt (n := 1) ledger62 (by decide +kernel),
    by decide +kernel, by decide +kernel, reached_of_closedBy (n := 4) _ (by decide +kernel)⟩

end SmartCore.History
