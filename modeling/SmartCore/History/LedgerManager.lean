import Mathlib
import SmartCore.Lib.Code
import SmartCore.SCP.Types

/-!
# Closing ledgers in order

`LedgerManagerImpl` between consensus and history. Consensus delivers values at any time
(`externalizeValue`); when one is missing, catchup starts, and the values that arrive meanwhile are
buffered in `mSyncingLedgers` until catchup ends (`historyCaughtup`).

* `closeLedger` is only called for the ledger after the last closed one,
* the buffer is a contiguous run, and empty unless the node is catching up, and
* a ledger is closed at most once, as long as no catchup ends below the last closed ledger.

Catchup can end more than one ledger below the buffer (an operator may ask for any ledger). The
buffer is then dropped and catchup restarts; that branch is reachable
(`catchup_overshoots`), and nothing is closed on it. The work manager may refuse the new catchup
there, since it still has the one that ends. A ledger that a minimal catchup jumps over is never
closed.

Main result: `run_closes_in_order`, over all sequences of inputs.
-/

namespace SmartCore.History

open SCP (Uint32 UINT32_MAX Hash)

/-! ## Data -/

/-- What consensus agreed to. `rest` stands for the fields that nothing here reads. -/
structure StellarValue where
  txSetHash : Hash
  rest : ℕ := 0
deriving DecidableEq, Repr

/-- A ledger header. `rest` stands for the fields that nothing here reads. -/
structure LedgerHeader where
  previousLedgerHash : Hash
  scpValue : StellarValue
  bucketListHash : Hash := 0
  ledgerSeq : Uint32
  rest : ℕ := 0
deriving DecidableEq, Repr

/-- A header with the hash it is claimed to have. -/
structure LedgerHeaderHistoryEntry where
  hash : Hash
  header : LedgerHeader
deriving DecidableEq, Repr

/-- A transaction set, seen from outside. -/
structure TxSetFrame where
  previousLedgerHash : Hash
  getContentsHash : Hash
deriving DecidableEq, Repr

/-- A ledger to close. Its constructor asserts that the value is that of the transaction set. -/
structure LedgerCloseData where
  mLedgerSeq : Uint32
  mTxSet : TxSetFrame
  mValue : StellarValue
  txSet_value : mTxSet.getContentsHash = mValue.txSetHash
deriving DecidableEq, Repr

inductive CatchupMode where
  | CATCHUP_COMPLETE
  | CATCHUP_MINIMAL
  | CATCHUP_RECENT
  | CATCHUP_BUCKET_REPAIR
deriving DecidableEq, Repr

inductive State where
  | LM_BOOTING_STATE
  | LM_SYNCED_STATE
  | LM_CATCHING_UP_STATE
deriving DecidableEq, Repr

/-- The configuration, the hash of a header, and what closing a ledger does to its header:
`applyLedger` gives the new bucket list hash and the other fields, or nothing if the transactions
throw. -/
structure Application where
  CATCHUP_COMPLETE : Bool
  CATCHUP_RECENT : Uint32
  sha256 : LedgerHeader → Hash
  applyLedger : LedgerHeader → LedgerCloseData → Option (Hash × ℕ)

/-- What a ledger manager has done: `closeLedger` called while `lcl` was the last closed ledger, a
ledger closed, a catchup started, and the buffer found to start too late. -/
inductive Happening where
  | closeLedger (lcl seq : Uint32)
  | closed (seq : Uint32)
  | startCatchUp (initLedger : Uint32) (mode : CatchupMode) (manualCatchup : Bool)
  | overshoot (lcl : Uint32) (buffered : List Uint32)
deriving DecidableEq, Repr

/-- The ledger manager. `mCatchupWork` belongs to the history manager: is a catchup running?
`mChildren` are the catchups that the work manager has; a work is named after its mode and its ledger.
No function reads the log. -/
structure LedgerManager where
  mState : State := .LM_BOOTING_STATE
  mLastClosedLedger : LedgerHeaderHistoryEntry
  mCurrentLedger : LedgerHeader
  mSyncingLedgers : List LedgerCloseData := []
  mCatchupWork : Bool := false
  mChildren : List (CatchupMode × Uint32) := []
  log : List Happening := []

namespace LedgerManager

/-- The number of the last closed ledger. -/
def lcl (s : LedgerManager) : Uint32 := s.mLastClosedLedger.header.ledgerSeq

end LedgerManager

/-- The exceptions and assertions of the code below. -/
inductive Fault where
  | networkConsensusInconsistency
  | txSetMismatch
  | corruptTransactionSet
  | applyFailed
  | invalidHeader
  | catchupInProgress
  | duplicateChildWork
  | replayFailed
  | assertNotSyncing
  | assertRepair
  | assertMode
  | assertHash
  | assertHeader
  | assertTxSetHash
  | assertValue
  | assertOvershoot
deriving DecidableEq, Repr

/-- Is it an exception, which a work that replays history catches? -/
def Fault.isException : Fault → Bool
  | networkConsensusInconsistency | txSetMismatch | corruptTransactionSet | applyFailed
  | invalidHeader | catchupInProgress | duplicateChildWork | replayFailed => true
  | _ => false

abbrev LedgerManagerM := EStateM Fault LedgerManager

def record (h : Happening) : LedgerManagerM Unit :=
  modify fun s => { s with log := s.log ++ [h] }

namespace Application

variable (app : Application)

/-! ## Closing a ledger -/

/-- The header frame that follows a closed ledger. -/
def nextHeader (lastClosed : LedgerHeaderHistoryEntry) : LedgerHeader :=
  { lastClosed.header with
    ledgerSeq := lastClosed.header.ledgerSeq + 1
    previousLedgerHash := lastClosed.hash }

/-- `make_shared<LedgerHeaderFrame>(lastClosed)`. -/
def makeCurrentLedger (lastClosed : LedgerHeaderHistoryEntry) : LedgerManagerM Unit := do
  require (decide (app.sha256 lastClosed.header = lastClosed.hash)) .invalidHeader
  modify fun s => { s with mCurrentLedger := nextHeader lastClosed }

def advanceLedgerPointers : LedgerManagerM Unit := do
  let s ← get
  let lastClosed : LedgerHeaderHistoryEntry := ⟨app.sha256 s.mCurrentLedger, s.mCurrentLedger⟩
  set { s with mLastClosedLedger := lastClosed }
  record (.closed s.mCurrentLedger.ledgerSeq)
  app.makeCurrentLedger lastClosed

def closeLedger (ledgerData : LedgerCloseData) : LedgerManagerM Unit := do
  let s ← get
  record (.closeLedger s.lcl ledgerData.mLedgerSeq)
  require (decide (ledgerData.mTxSet.previousLedgerHash = s.mLastClosedLedger.hash)) .txSetMismatch
  require (decide (ledgerData.mTxSet.getContentsHash = ledgerData.mValue.txSetHash))
    .corruptTransactionSet
  modify fun s =>
    { s with mCurrentLedger := { s.mCurrentLedger with scpValue := ledgerData.mValue } }
  let s ← get
  let (bucketListHash, rest) ← deref (app.applyLedger s.mCurrentLedger ledgerData) .applyFailed
  modify fun s =>
    { s with mCurrentLedger :=
      { s.mCurrentLedger with bucketListHash := bucketListHash, rest := rest } }
  app.advanceLedgerPointers

/-! ## Consensus -/

def getCatchupMode : CatchupMode :=
  if app.CATCHUP_COMPLETE then .CATCHUP_COMPLETE
  else if app.CATCHUP_RECENT = 0 then .CATCHUP_MINIMAL
  else .CATCHUP_RECENT

/-- `HistoryManagerImpl::catchupHistory`. -/
def catchupHistory (initLedger : Uint32) (mode : CatchupMode) (manualCatchup : Bool) :
    LedgerManagerM Unit := do
  require (decide (mode ≠ .CATCHUP_BUCKET_REPAIR)) .assertRepair
  let s ← get
  require (!s.mCatchupWork) .catchupInProgress
  -- close enough to the network to run CATCHUP_COMPLETE
  let mode :=
    if mode = .CATCHUP_RECENT ∧ s.lcl < initLedger ∧ initLedger - s.lcl ≤ app.CATCHUP_RECENT then
      .CATCHUP_COMPLETE
    else mode
  -- `WorkParent::addChild`
  require (decide ((mode, initLedger) ∉ s.mChildren)) .duplicateChildWork
  set { s with mCatchupWork := true, mChildren := s.mChildren ++ [(mode, initLedger)] }
  record (.startCatchUp initLedger mode manualCatchup)

def startCatchUp (initLedger : Uint32) (resume : CatchupMode) (manualCatchup : Bool) :
    LedgerManagerM Unit := do
  modify fun s => { s with mState := .LM_CATCHING_UP_STATE }
  app.catchupHistory initLedger resume manualCatchup

def externalizeValue (ledgerData : LedgerCloseData) : LedgerManagerM Unit := do
  let s ← get
  match s.mState with
  | .LM_CATCHING_UP_STATE =>
    -- a value that does not extend the buffer is dropped
    if s.mSyncingLedgers.getLast?.all fun back =>
        decide (back.mLedgerSeq + 1 = ledgerData.mLedgerSeq) then
      set { s with mSyncingLedgers := s.mSyncingLedgers ++ [ledgerData] }
    else pure ()
  | _ =>
    if s.lcl + 1 = ledgerData.mLedgerSeq then
      if s.mLastClosedLedger.hash = ledgerData.mTxSet.previousLedgerHash then do
        set { s with mState := .LM_SYNCED_STATE }
        app.closeLedger ledgerData
      else throw .networkConsensusInconsistency
    else if ledgerData.mLedgerSeq ≤ s.lcl then pure ()
    else do
      -- out of sync, buffer what we just heard and start catchup
      require s.mSyncingLedgers.isEmpty .assertNotSyncing
      set { s with mSyncingLedgers := s.mSyncingLedgers ++ [ledgerData] }
      app.startCatchUp ledgerData.mLedgerSeq app.getCatchupMode false

/-- The operator's command. -/
def catchup (ledger : Uint32) (mode : CatchupMode) : LedgerManagerM Unit := do
  let s ← get
  if s.mState = .LM_SYNCED_STATE ∧ ledger ≠ 0 then app.startCatchUp ledger mode true else pure ()

/-! ## History -/

/-- `ApplyLedgerChainWork::applyHistoryOfSingleLedger`, for a header read from the archive and the
transaction set that goes with it. -/
def applyHistoryOfSingleLedger (hHeader : LedgerHeaderHistoryEntry) (txset : TxSetFrame) :
    LedgerManagerM Unit := do
  let header := hHeader.header
  let s ← get
  if header.ledgerSeq + 1 < s.lcl then pure ()
  else if header.ledgerSeq + 1 = s.lcl then
    require (decide (hHeader.hash = s.mLastClosedLedger.header.previousLedgerHash)) .replayFailed
  else if header.ledgerSeq = s.lcl then
    require (decide (hHeader.hash = s.mLastClosedLedger.hash)) .replayFailed
  else do
    require (decide (header.ledgerSeq = s.mCurrentLedger.ledgerSeq)) .replayFailed
    require (decide (header.previousLedgerHash = s.mLastClosedLedger.hash)) .replayFailed
    if h : txset.getContentsHash = header.scpValue.txSetHash then do
      app.closeLedger ⟨header.ledgerSeq, txset, header.scpValue, h⟩
      let s ← get
      require (decide (s.mLastClosedLedger.hash = hHeader.hash)) .replayFailed
    else throw .replayFailed

/-- The work that replays catches the exceptions; it will report a failure later. -/
def replay (hHeader : LedgerHeaderHistoryEntry) (txset : TxSetFrame) : LedgerManagerM Unit :=
  tryCatch (app.applyHistoryOfSingleLedger hHeader txset) fun e =>
    if e.isException then pure () else throw e

/-- The loop over the buffered ledgers. The answer is `false` if it met one that does not follow the
last closed ledger. -/
def replayBuffered : List LedgerCloseData → LedgerManagerM Bool
  | [] => pure true
  | lcd :: rest => do
    let s ← get
    if lcd.mLedgerSeq < s.lcl + 1 then do
      if lcd.mLedgerSeq = s.lcl then do
        -- the knit-up point between history-replay and buffer-replay
        require (decide (lcd.mTxSet.getContentsHash = lcd.mValue.txSetHash)) .assertTxSetHash
        require (decide (lcd.mValue = s.mLastClosedLedger.header.scpValue)) .assertValue
        replayBuffered rest
      else replayBuffered rest
    else if lcd.mLedgerSeq = s.lcl + 1 then do
      app.closeLedger lcd
      replayBuffered rest
    else do
      require (decide (s.lcl + 1 < lcd.mLedgerSeq)) .assertOvershoot
      pure false

/-- The end of `historyCaughtup`, once the last closed ledger is the one catchup ended with. -/
def applyBuffered : LedgerManagerM Unit := do
  let s ← get
  let done ← app.replayBuffered s.mSyncingLedgers
  if done then modify fun s => { s with mState := .LM_SYNCED_STATE, mSyncingLedgers := [] }
  else
    match s.mSyncingLedgers.getLast? with
    | none => pure ()
    | some lastBuffered => do
      -- something was seriously wrong: flush everything and restart the process anew
      let s' ← get
      record (.overshoot s'.lcl (s.mSyncingLedgers.map LedgerCloseData.mLedgerSeq))
      modify fun s => { s with mSyncingLedgers := [] }
      app.startCatchUp lastBuffered.mLedgerSeq app.getCatchupMode false

/-- What a catchup calls at its end. In mode `CATCHUP_RECENT` this is only the first of two calls. -/
def historyCaughtup (ec : Bool) (mode : CatchupMode) (lastClosed : LedgerHeaderHistoryEntry) :
    LedgerManagerM Unit := do
  if ec then modify fun s => { s with mState := .LM_BOOTING_STATE, mSyncingLedgers := [] }
  else
    match mode with
    | .CATCHUP_RECENT => do
      modify fun s => { s with mLastClosedLedger := lastClosed }
      app.makeCurrentLedger lastClosed
    | .CATCHUP_MINIMAL => do
      modify fun s => { s with mLastClosedLedger := lastClosed }
      app.makeCurrentLedger lastClosed
      app.applyBuffered
    | _ => do
      require (decide (mode = .CATCHUP_COMPLETE)) .assertMode
      let s ← get
      require (decide (lastClosed.hash = s.mLastClosedLedger.hash)) .assertHash
      require (decide (lastClosed.header = s.mLastClosedLedger.header)) .assertHeader
      app.applyBuffered

/-- A catchup ends. It drops itself from the history manager and calls the ledger manager; only then
does the work manager hear of its end (`WorkManagerImpl::notify`). A recent catchup goes on after its
first call. -/
def completeCatchup (ec : Bool) (mode : CatchupMode) (lastClosed : LedgerHeaderHistoryEntry) :
    LedgerManagerM Unit := do
  modify fun s => { s with mCatchupWork := false }
  let s ← get
  app.historyCaughtup ec mode lastClosed
  if ec = false ∧ mode = .CATCHUP_RECENT then pure ()
  else modify fun t => { t with mChildren := t.mChildren.filter (· ∉ s.mChildren) }

end Application

/-! ## Runs -/

/-- What reaches a ledger manager. -/
inductive Input where
  | externalizeValue (ledgerData : LedgerCloseData)
  | catchup (ledger : Uint32) (mode : CatchupMode)
  | replay (hHeader : LedgerHeaderHistoryEntry) (txset : TxSetFrame)
  | historyCaughtup (ec : Bool) (mode : CatchupMode) (lastClosed : LedgerHeaderHistoryEntry)

def Application.step (app : Application) : Input → LedgerManagerM Unit
  | .externalizeValue ledgerData => app.externalizeValue ledgerData
  | .catchup ledger mode => app.catchup ledger mode
  | .replay hHeader txset => app.replay hHeader txset
  | .historyCaughtup ec mode lastClosed => app.completeCatchup ec mode lastClosed

/-- A ledger manager that has loaded its last closed ledger. -/
def Application.loaded (lastClosed : LedgerHeaderHistoryEntry) : LedgerManager where
  mLastClosedLedger := lastClosed
  mCurrentLedger := Application.nextHeader lastClosed

/-- The ledger manager after a run, whether or not the process is still alive. -/
def Application.managerAfter (app : Application) (lastClosed : LedgerHeaderHistoryEntry)
    (inputs : List Input) : LedgerManager :=
  match runInputs app.step inputs (Application.loaded lastClosed) with
  | .ok _ s => s
  | .error _ s => s

/-- What the process died of, if it did. -/
def Application.faultAfter (app : Application) (lastClosed : LedgerHeaderHistoryEntry)
    (inputs : List Input) : Option Fault :=
  match runInputs app.step inputs (Application.loaded lastClosed) with
  | .ok _ _ => none
  | .error e _ => some e

/-! ## Invariants -/

section Invariants

variable {app : Application} {up faithful : Prop} {s t : LedgerManager}

/-- Each ledger is the one after the ledger before it. -/
def Contiguous (l : List LedgerCloseData) : Prop :=
  l.IsChain fun a b => b.mLedgerSeq = a.mLedgerSeq + 1

instance (l : List LedgerCloseData) : Decidable (Contiguous l) :=
  inferInstanceAs (Decidable (List.IsChain _ _))

/-- The ledgers that were closed. -/
def closed (log : List Happening) : List Uint32 :=
  log.filterMap fun
    | .closed seq => some seq
    | _ => none

/-- The catchups that the history manager and the work manager have. -/
def LedgerManager.works (s : LedgerManager) : Bool × List (CatchupMode × Uint32) :=
  (s.mCatchupWork, s.mChildren)

/-- What holds between two inputs. -/
structure Ordered (s : LedgerManager) : Prop where
  current : s.mCurrentLedger.ledgerSeq = s.lcl + 1
  contiguous : Contiguous s.mSyncingLedgers
  idle : s.mState ≠ .LM_CATCHING_UP_STATE → s.mSyncingLedgers = [] ∧ s.works = (false, [])

/-- What the log shows at any time: `closeLedger` was called for the next ledger only, the ledgers
were closed in increasing order (if catchup never went back and the numbers did not wrap around),
and a buffer was only dropped if it started too late. -/
structure Logged (up : Prop) (s : LedgerManager) : Prop where
  calls : ∀ lcl seq, .closeLedger lcl seq ∈ s.log → seq = lcl + 1
  increasing : up → 0 ∉ closed s.log →
    (closed s.log).Pairwise (· < ·) ∧ ∀ n ∈ closed s.log, n ≤ s.lcl
  overshoots : ∀ lcl buffered, .overshoot lcl buffered ∈ s.log →
    ∃ first rest, buffered = first :: rest ∧ lcl + 1 < first

/-- `t` differs from `s` in nothing that the invariants speak of. -/
structure Same (s t : LedgerManager) : Prop where
  lcl : t.lcl = s.lcl
  current : t.mCurrentLedger.ledgerSeq = s.mCurrentLedger.ledgerSeq
  state : t.mState = s.mState
  syncing : t.mSyncingLedgers = s.mSyncingLedgers
  works : t.works = s.works

theorem Same.ordered (h : Same s t) (hs : Ordered s) : Ordered t where
  current := by rw [h.current, h.lcl]; exact hs.current
  contiguous := by rw [h.syncing]; exact hs.contiguous
  idle hne := by
    rw [h.syncing, h.works]
    exact hs.idle (by rwa [← h.state])

/-- The faults that never happen. -/
def Fault.unreachable : Fault → Bool
  | corruptTransactionSet | catchupInProgress | replayFailed | assertNotSyncing | assertTxSetHash
  | assertOvershoot => true
  | _ => false

/-- How the process may die; if the inputs are faithful, then of an exception only. -/
structure Dies (up faithful : Prop) (e : Fault) (s : LedgerManager) : Prop where
  logged : Logged up s
  reachable : e.unreachable = false
  exception : faithful → e.isException = true
  /-- a catchup is refused only if one has just overshot -/
  duplicate : e = .duplicateChildWork → ∃ lcl buffered, .overshoot lcl buffered ∈ s.log

theorem lt_add_one_of_ne {a : Uint32} (h : a + 1 ≠ 0) : a < a + 1 := by
  rw [Ne, Fin.ext_iff, Fin.val_add] at h
  rw [Fin.lt_def, Fin.val_add]
  have := a.isLt
  simp only [Fin.val_one, Fin.val_zero] at h ⊢
  omega

/-- An event that closes nothing and drops no buffer. -/
theorem Logged.of_quiet (h : Logged up s) {es : List Happening} (hlog : t.log = s.log ++ es)
    (hlcl : up → s.lcl ≤ t.lcl)
    (hes : ∀ e ∈ es, ∃ i m b, e = .startCatchUp i m b) : Logged up t := by
  have hclosed : closed t.log = closed s.log := by
    have hnil : closed es = [] := by
      refine List.filterMap_eq_nil_iff.mpr fun e he => ?_
      obtain ⟨i, m, b, rfl⟩ := hes e he
      rfl
    rw [hlog, closed, List.filterMap_append]
    show closed s.log ++ closed es = _
    rw [hnil, List.append_nil]
  have hmem : ∀ e, (∀ i m b, e ≠ .startCatchUp i m b) → e ∈ t.log → e ∈ s.log := by
    intro e hne he
    rw [hlog, List.mem_append] at he
    refine he.resolve_right fun he => ?_
    obtain ⟨i, m, b, rfl⟩ := hes e he
    exact hne i m b rfl
  refine ⟨fun l n he => h.calls l n (hmem _ (by simp) he), fun hup h0 => ?_,
    fun l b he => h.overshoots l b (hmem _ (by simp) he)⟩
  rw [hclosed] at h0 ⊢
  obtain ⟨hpair, hle⟩ := h.increasing hup h0
  exact ⟨hpair, fun n hn => (hle n hn).trans (hlcl hup)⟩

/-- A call of `closeLedger` for the next ledger. -/
theorem Logged.called (h : Logged up s) (hlog : t.log = s.log ++ [.closeLedger s.lcl (s.lcl + 1)])
    (hlcl : t.lcl = s.lcl) : Logged up t := by
  have hclosed : closed t.log = closed s.log := by simp [hlog, closed]
  refine ⟨fun l n he => ?_, fun hup h0 => ?_, fun l b he => ?_⟩
  · rw [hlog, List.mem_append, List.mem_singleton] at he
    rcases he with he | he
    · exact h.calls l n he
    · obtain ⟨rfl, rfl⟩ := Happening.closeLedger.inj he
      rfl
  · rw [hclosed] at h0 ⊢
    rw [hlcl]
    exact h.increasing hup h0
  · exact h.overshoots l b (by simpa [hlog] using he)

/-- The next ledger is closed. -/
theorem Logged.closing (h : Logged up s) (hlog : t.log = s.log ++ [.closed (s.lcl + 1)])
    (hlcl : t.lcl = s.lcl + 1) : Logged up t := by
  have hclosed : closed t.log = closed s.log ++ [s.lcl + 1] := by simp [hlog, closed]
  refine ⟨fun l n he => h.calls l n (by simpa [hlog] using he), fun hup h0 => ?_,
    fun l b he => h.overshoots l b (by simpa [hlog] using he)⟩
  rw [hclosed] at h0 ⊢
  rw [List.mem_append, List.mem_singleton, not_or] at h0
  obtain ⟨hpair, hle⟩ := h.increasing hup h0.1
  have hlt : s.lcl < s.lcl + 1 := lt_add_one_of_ne (Ne.symm h0.2)
  refine ⟨List.pairwise_append.mpr ⟨hpair, List.pairwise_singleton _ _, ?_⟩, fun n hn => ?_⟩
  · intro n hn m hm
    rw [List.mem_singleton.mp hm]
    exact (hle n hn).trans_lt hlt
  · rw [hlcl]
    rcases List.mem_append.mp hn with hn | hn
    · exact (hle n hn).trans hlt.le
    · exact (List.mem_singleton.mp hn).le

/-- The buffer is dropped. -/
theorem Logged.overshot (h : Logged up s) (first : Uint32) (rest : List Uint32)
    (hlog : t.log = s.log ++ [.overshoot s.lcl (first :: rest)]) (hfirst : s.lcl + 1 < first)
    (hlcl : t.lcl = s.lcl) : Logged up t := by
  have hclosed : closed t.log = closed s.log := by simp [hlog, closed]
  refine ⟨fun l n he => h.calls l n (by simpa [hlog] using he), fun hup h0 => ?_, fun l b he => ?_⟩
  · rw [hclosed] at h0 ⊢
    rw [hlcl]
    exact h.increasing hup h0
  · rw [hlog, List.mem_append, List.mem_singleton] at he
    rcases he with he | he
    · exact h.overshoots l b he
    · obtain ⟨rfl, rfl⟩ := Happening.overshoot.inj he
      exact ⟨first, rest, rfl, hfirst⟩

/-! ## One ledger -/

theorem advanceLedgerPointers_spec {E : Fault → LedgerManager → Prop}
    (hcur : s.mCurrentLedger.ledgerSeq = s.lcl + 1) (hlog : Logged up s) :
    wp app.advanceLedgerPointers
      (fun _ t => Logged up t ∧ t.lcl = s.lcl + 1 ∧ t.mCurrentLedger.ledgerSeq = t.lcl + 1 ∧
        t.mState = s.mState ∧ t.mSyncingLedgers = s.mSyncingLedgers ∧
        t.works = s.works) E s := by
  unfold Application.advanceLedgerPointers Application.makeCurrentLedger record
  simp only [wp_bind, wp_get, wp_set, wp_modify, wp_require]
  refine ⟨fun _ => ⟨hlog.closing (by rw [hcur]) hcur, hcur, rfl, by simp [LedgerManager.works]⟩,
    fun hbad => ?_⟩
  simp at hbad

/-- Closing the next ledger: it becomes the last closed one. -/
theorem closeLedger_spec {lcd : LedgerCloseData} (hcur : s.mCurrentLedger.ledgerSeq = s.lcl + 1)
    (hlog : Logged up s) (hseq : lcd.mLedgerSeq = s.lcl + 1) :
    wp (app.closeLedger lcd)
      (fun _ t => Logged up t ∧ t.lcl = s.lcl + 1 ∧ t.mCurrentLedger.ledgerSeq = t.lcl + 1 ∧
        t.mState = s.mState ∧ t.mSyncingLedgers = s.mSyncingLedgers ∧
        t.works = s.works)
      (fun e t => Logged up t ∧ Same s t ∧ (e = .txSetMismatch ∨ e = .applyFailed)) s := by
  unfold Application.closeLedger record
  have hcalled : ∀ t : LedgerManager, t.log = s.log ++ [.closeLedger s.lcl lcd.mLedgerSeq] →
      t.lcl = s.lcl → Logged up t := fun t ht => hlog.called (by rw [ht, hseq])
  simp only [wp_bind, wp_get, wp_modify, wp_require, wp_deref]
  refine ⟨fun _ => ⟨fun _ => ⟨fun r _ => ?_, fun _ => ?_⟩, fun hbad => ?_⟩, fun _ => ?_⟩
  · exact wp_mono (advanceLedgerPointers_spec hcur (hcalled _ rfl rfl)) (fun _ _ h => h)
      fun _ _ h => h
  · exact ⟨hcalled _ rfl rfl, ⟨rfl, rfl, rfl, rfl, rfl⟩, by simp⟩
  · simp [lcd.txSet_value] at hbad
  · exact ⟨hcalled _ rfl rfl, ⟨rfl, rfl, rfl, rfl, rfl⟩, by simp⟩

theorem Dies.of_exception {e : Fault} (hlog : Logged up s) (h : e = .txSetMismatch ∨ e = .applyFailed ∨
    e = .invalidHeader ∨ e = .networkConsensusInconsistency) : Dies up faithful e s := by
  refine ⟨hlog, ?_, fun _ => ?_, ?_⟩ <;> rcases h with rfl | rfl | rfl | rfl <;>
    first | rfl | (intro h; cases h)

theorem startCatchUp_spec {i : Uint32} {mode : CatchupMode} {manual : Bool}
    (hcur : s.mCurrentLedger.ledgerSeq = s.lcl + 1) (hcont : Contiguous s.mSyncingLedgers)
    (hmode : faithful → mode ≠ .CATCHUP_BUCKET_REPAIR) (hwork : s.mCatchupWork = false)
    (hchildren : s.mChildren ≠ [] → ∃ lcl buffered, .overshoot lcl buffered ∈ s.log)
    (hlog : Logged up s) :
    wp (app.startCatchUp i mode manual) (fun _ t => t.mState = .LM_CATCHING_UP_STATE ∧ Ordered t ∧
      Logged up t) (Dies up faithful) s := by
  have hstarted : ∀ t : LedgerManager, t.log = s.log → t.lcl = s.lcl → Logged up t :=
    fun t ht hlcl => hlog.of_quiet (ht.trans (List.append_nil _).symm) (fun _ => hlcl.ge) (by simp)
  unfold Application.startCatchUp Application.catchupHistory record
  simp only [wp_bind, wp_get, wp_set, wp_modify, wp_require, hwork, Bool.not_false, true_implies,
    Bool.true_eq_false, false_implies, and_true]
  refine ⟨fun _ => ⟨fun _ => ?_, fun hdup => ?_⟩, fun hrepair => ?_⟩
  · refine ⟨trivial, ⟨hcur, hcont, fun h => absurd rfl h⟩, hlog.of_quiet rfl (fun _ => le_rfl) ?_⟩
    intro e he
    exact ⟨_, _, _, List.mem_singleton.mp he⟩
  · refine ⟨hstarted _ rfl rfl, rfl, fun _ => rfl, fun _ => hchildren fun hnil => ?_⟩
    simp [hnil] at hdup
  · refine ⟨hstarted _ rfl rfl, rfl, fun hf => absurd ?_ (hmode hf), fun h => by cases h⟩
    simpa using hrepair

theorem getCatchupMode_ne : app.getCatchupMode ≠ .CATCHUP_BUCKET_REPAIR := by
  unfold Application.getCatchupMode
  split_ifs <;> decide

/-! ## Consensus -/

theorem Contiguous.append {l : List LedgerCloseData} {lcd : LedgerCloseData} (h : Contiguous l)
    (hlast : l.getLast?.all (fun back => decide (back.mLedgerSeq + 1 = lcd.mLedgerSeq)) = true) :
    Contiguous (l ++ [lcd]) := by
  refine List.isChain_append.mpr ⟨h, List.isChain_singleton _, fun a ha b hb => ?_⟩
  obtain rfl := Option.some.inj hb
  rw [ha, Option.all_some, decide_eq_true_eq] at hlast
  exact hlast.symm

theorem externalizeValue_spec {lcd : LedgerCloseData} (hs : Ordered s) (hlog : Logged up s) :
    wp (app.externalizeValue lcd) (fun _ t => Ordered t ∧ Logged up t) (Dies up faithful) s := by
  unfold Application.externalizeValue
  simp only [wp_bind, wp_get]
  have hnot : s.mState ≠ .LM_CATCHING_UP_STATE →
      wp (if s.lcl + 1 = lcd.mLedgerSeq then
          if s.mLastClosedLedger.hash = lcd.mTxSet.previousLedgerHash then do
            set { s with mState := .LM_SYNCED_STATE }
            app.closeLedger lcd
          else throw .networkConsensusInconsistency
        else if lcd.mLedgerSeq ≤ s.lcl then pure ()
        else do
          require s.mSyncingLedgers.isEmpty .assertNotSyncing
          set { s with mSyncingLedgers := s.mSyncingLedgers ++ [lcd] }
          app.startCatchUp lcd.mLedgerSeq app.getCatchupMode false)
        (fun _ t => Ordered t ∧ Logged up t) (Dies up faithful) s := by
    intro hstate
    obtain ⟨hempty, hworks⟩ := hs.idle hstate
    obtain ⟨hwork, hchildren⟩ := Prod.mk.inj hworks
    refine (wp_ite _ _).mpr ⟨fun hnext => ?_, fun _ => (wp_ite _ _).mpr ⟨fun _ => ⟨hs, hlog⟩, fun _ => ?_⟩⟩
    · refine (wp_ite _ _).mpr ⟨fun _ => ?_, fun _ => Dies.of_exception hlog (by simp)⟩
      simp only [wp_bind, wp_set]
      have hsynced : Logged up { s with mState := .LM_SYNCED_STATE } :=
        hlog.of_quiet (List.append_nil _).symm (fun _ => le_rfl) (by simp)
      refine wp_mono (closeLedger_spec hs.current hsynced hnext.symm) (fun _ t ht => ?_)
        fun e t he => Dies.of_exception he.1 (by rcases he.2.2 with rfl | rfl <;> simp)
      obtain ⟨hlog', hlcl, hcur, hst, hsync, hw⟩ := ht
      exact ⟨⟨hcur, by rw [hsync]; exact hs.contiguous,
        fun _ => ⟨hsync.trans hempty, hw.trans hworks⟩⟩, hlog'⟩
    · simp only [wp_bind, wp_set, wp_require, hempty, List.isEmpty_nil, true_implies,
        Bool.true_eq_false, false_implies, and_true, List.nil_append]
      refine wp_mono (startCatchUp_spec hs.current (List.isChain_singleton _)
        (fun _ => getCatchupMode_ne) hwork (fun h => absurd hchildren h)
        (hlog.of_quiet (List.append_nil _).symm (fun _ => le_rfl) (by simp))) (fun _ _ h => h.2)
        fun _ _ h => h
  cases hst : s.mState with
  | LM_CATCHING_UP_STATE =>
    refine (wp_ite _ _).mpr ⟨fun hlast => ?_, fun _ => ⟨hs, hlog⟩⟩
    rw [wp_set]
    exact ⟨⟨hs.current, hs.contiguous.append hlast, fun h => absurd rfl h⟩,
      hlog.of_quiet (List.append_nil _).symm (fun _ => le_rfl) (by simp)⟩
  | LM_BOOTING_STATE => exact hnot (by simp [hst])
  | LM_SYNCED_STATE => exact hnot (by simp [hst])

theorem catchup_spec {ledger : Uint32} {mode : CatchupMode} (hs : Ordered s) (hlog : Logged up s)
    (hmode : faithful → mode ≠ .CATCHUP_BUCKET_REPAIR) :
    wp (app.catchup ledger mode) (fun _ t => Ordered t ∧ Logged up t) (Dies up faithful) s := by
  unfold Application.catchup
  simp only [wp_bind, wp_get]
  refine (wp_ite _ _).mpr ⟨fun h => ?_, fun _ => ⟨hs, hlog⟩⟩
  obtain ⟨hstate, _⟩ := h
  obtain ⟨hwork, hchildren⟩ := Prod.mk.inj (hs.idle (by simp [hstate])).2
  exact wp_mono (startCatchUp_spec hs.current hs.contiguous hmode hwork
    (fun h => absurd hchildren h) hlog) (fun _ _ h => h.2) fun _ _ h => h

/-! ## History -/

theorem applyHistoryOfSingleLedger_spec {hHeader : LedgerHeaderHistoryEntry} {txset : TxSetFrame}
    (hs : Ordered s) (hlog : Logged up s) :
    wp (app.applyHistoryOfSingleLedger hHeader txset) (fun _ t => Ordered t ∧ Logged up t)
      (fun e t => (Ordered t ∧ Logged up t) ∧ e.isException = true) s := by
  unfold Application.applyHistoryOfSingleLedger
  simp only [wp_bind, wp_get]
  refine (wp_ite _ _).mpr ⟨fun _ => ⟨hs, hlog⟩, fun _ => ?_⟩
  refine (wp_ite _ _).mpr ⟨fun _ => ?_, fun _ => ?_⟩
  · rw [wp_require]
    exact ⟨fun _ => ⟨hs, hlog⟩, fun _ => ⟨⟨hs, hlog⟩, rfl⟩⟩
  refine (wp_ite _ _).mpr ⟨fun _ => ?_, fun _ => ?_⟩
  · rw [wp_require]
    exact ⟨fun _ => ⟨hs, hlog⟩, fun _ => ⟨⟨hs, hlog⟩, rfl⟩⟩
  simp only [wp_bind, wp_require]
  refine ⟨fun hseq => ⟨fun _ => ?_, fun _ => ⟨⟨hs, hlog⟩, rfl⟩⟩, fun _ => ⟨⟨hs, hlog⟩, rfl⟩⟩
  split
  · rename_i hset
    rw [wp_bind]
    refine wp_mono (closeLedger_spec hs.current hlog (by
      rw [← hs.current]
      exact decide_eq_true_eq.mp hseq)) (fun _ t ht => ?_) fun e t he => ?_
    · obtain ⟨hlog', hlcl, hcur, hst, hsync, hw⟩ := ht
      have ht : Ordered t :=
        ⟨hcur, by rw [hsync]; exact hs.contiguous,
          fun hne => by rw [hsync, hw]; exact hs.idle (by rwa [← hst])⟩
      simp only [wp_bind, wp_get, wp_require]
      exact ⟨fun _ => ⟨ht, hlog'⟩, fun _ => ⟨⟨ht, hlog'⟩, rfl⟩⟩
    · exact ⟨⟨he.2.1.ordered hs, he.1⟩, by rcases he.2.2 with rfl | rfl <;> rfl⟩
  · exact ⟨⟨hs, hlog⟩, rfl⟩

theorem replay_spec {hHeader : LedgerHeaderHistoryEntry} {txset : TxSetFrame} (hs : Ordered s)
    (hlog : Logged up s) :
    wp (app.replay hHeader txset) (fun _ t => Ordered t ∧ Logged up t) (Dies up faithful) s := by
  unfold Application.replay
  rw [wp_tryCatch]
  refine wp_mono (applyHistoryOfSingleLedger_spec hs hlog) (fun _ _ h => h) fun e t he => ?_
  rw [if_pos he.2]
  exact he.1

/-- What replaying the buffer leaves behind. -/
structure Replayed (up : Prop) (s t : LedgerManager) : Prop where
  current : t.mCurrentLedger.ledgerSeq = t.lcl + 1
  logged : Logged up t
  syncing : t.mSyncingLedgers = s.mSyncingLedgers
  works : t.works = s.works

theorem Replayed.trans {u : LedgerManager} (h : Replayed up t u)
    (hsync : t.mSyncingLedgers = s.mSyncingLedgers) (hworks : t.works = s.works) :
    Replayed up s u :=
  ⟨h.current, h.logged, h.syncing.trans hsync, h.works.trans hworks⟩

/-- A buffer that starts with the next ledger is closed to its end. -/
theorem replayBuffered_next {l : List LedgerCloseData}
    (hcur : s.mCurrentLedger.ledgerSeq = s.lcl + 1) (hlog : Logged up s) (hl : Contiguous l)
    (hhead : ∀ lcd ∈ l.head?, lcd.mLedgerSeq = s.lcl + 1) :
    wp (app.replayBuffered l) (fun r t => r = true ∧ Replayed up s t) (Dies up faithful) s := by
  induction l generalizing s with
  | nil => exact ⟨rfl, hcur, hlog, rfl, rfl⟩
  | cons lcd rest ih =>
    have heq : lcd.mLedgerSeq = s.lcl + 1 := hhead lcd rfl
    unfold Application.replayBuffered
    simp only [wp_bind, wp_get]
    rw [if_neg heq.not_lt, if_pos heq, wp_bind]
    refine wp_mono (closeLedger_spec hcur hlog heq) (fun _ t ht => ?_) fun e t he => ?_
    · obtain ⟨hlog', hlcl, hcur', -, hsync, hwork⟩ := ht
      refine wp_mono (ih hcur' hlog' hl.tail fun lcd' hmem => ?_)
        (fun r u hu => ⟨hu.1, hu.2.trans hsync hwork⟩) fun _ _ h => h
      rw [hlcl, ← heq]
      exact (List.isChain_cons.mp hl).1 lcd' hmem
    · exact Dies.of_exception he.1 (by rcases he.2.2 with rfl | rfl <;> simp)

/-- A buffer that does not start too late is replayed to its end. -/
theorem replayBuffered_follows {l : List LedgerCloseData}
    (hcur : s.mCurrentLedger.ledgerSeq = s.lcl + 1) (hlog : Logged up s) (hl : Contiguous l)
    (hhead : ∀ lcd ∈ l.head?, lcd.mLedgerSeq ≤ s.lcl + 1)
    (hvalue : faithful → ∀ lcd ∈ l, lcd.mLedgerSeq = s.lcl →
      lcd.mValue = s.mLastClosedLedger.header.scpValue) :
    wp (app.replayBuffered l) (fun r t => r = true ∧ Replayed up s t) (Dies up faithful) s := by
  induction l with
  | nil => exact ⟨rfl, hcur, hlog, rfl, rfl⟩
  | cons lcd rest ih =>
    by_cases heq : lcd.mLedgerSeq = s.lcl + 1
    · exact replayBuffered_next hcur hlog hl (by simpa using heq)
    have hlt : lcd.mLedgerSeq < s.lcl + 1 := lt_of_le_of_ne (hhead lcd rfl) heq
    -- the next one is at most one ledger later
    have hrest := ih hl.tail (fun lcd' hmem => by
        rw [(List.isChain_cons.mp hl).1 lcd' hmem]
        exact Fin.add_one_le_of_lt hlt)
      fun hf lcd' hmem => hvalue hf lcd' (List.mem_cons_of_mem _ hmem)
    unfold Application.replayBuffered
    simp only [wp_bind, wp_get]
    rw [if_pos hlt]
    refine (wp_ite _ _).mpr ⟨fun hknit => ?_, fun _ => hrest⟩
    simp only [wp_bind, wp_require]
    refine ⟨fun _ => ⟨fun _ => hrest, fun hbad => ⟨hlog, rfl, fun hf => ?_, fun h => by cases h⟩⟩,
      fun hbad => ?_⟩
    · simp [hvalue hf lcd List.mem_cons_self hknit] at hbad
    · simp [lcd.txSet_value] at hbad

/-- A buffer that starts too late is not touched. -/
theorem replayBuffered_overshoot {lcd : LedgerCloseData} {rest : List LedgerCloseData}
    {Q : Bool → LedgerManager → Prop} {E : Fault → LedgerManager → Prop}
    (hlate : s.lcl + 1 < lcd.mLedgerSeq) (hQ : Q false s) :
    wp (app.replayBuffered (lcd :: rest)) Q E s := by
  unfold Application.replayBuffered
  simp only [wp_bind, wp_get]
  rw [if_neg hlate.not_gt, if_neg hlate.ne']
  simp only [wp_bind, wp_require, wp_pure]
  exact ⟨fun _ => hQ, fun hbad => by simp [hlate] at hbad⟩

/-- What holds when a catchup has called the ledger manager: the work manager still has it. -/
structure Ending (children : List (CatchupMode × Uint32)) (s : LedgerManager) : Prop where
  current : s.mCurrentLedger.ledgerSeq = s.lcl + 1
  contiguous : Contiguous s.mSyncingLedgers
  idle : s.mState ≠ .LM_CATCHING_UP_STATE → s.mSyncingLedgers = [] ∧ s.works = (false, children)

theorem Ordered.ending (h : Ordered s) (hstate : s.mState = .LM_CATCHING_UP_STATE)
    (children : List (CatchupMode × Uint32)) : Ending children s :=
  ⟨h.current, h.contiguous, fun hne => absurd hstate hne⟩

theorem Ending.notified {children : List (CatchupMode × Uint32)} (h : Ending children s) :
    Ordered { s with mChildren := s.mChildren.filter (· ∉ children) } := by
  refine ⟨h.current, h.contiguous, fun hne => ?_⟩
  obtain ⟨hempty, hworks⟩ := h.idle hne
  obtain ⟨hwork, rfl⟩ := Prod.mk.inj hworks
  exact ⟨hempty, Prod.ext hwork (by simp [LedgerManager.works])⟩

theorem applyBuffered_spec (hcur : s.mCurrentLedger.ledgerSeq = s.lcl + 1) (hlog : Logged up s)
    (hl : Contiguous s.mSyncingLedgers) (hwork : s.mCatchupWork = false)
    (hvalue : faithful → ∀ lcd ∈ s.mSyncingLedgers, lcd.mLedgerSeq = s.lcl →
      lcd.mValue = s.mLastClosedLedger.header.scpValue) :
    wp app.applyBuffered (fun _ t => Ending s.mChildren t ∧ Logged up t) (Dies up faithful) s := by
  unfold Application.applyBuffered
  simp only [wp_bind, wp_get]
  by_cases hhead : ∀ lcd ∈ s.mSyncingLedgers.head?, lcd.mLedgerSeq ≤ s.lcl + 1
  · refine wp_mono (replayBuffered_follows hcur hlog hl hhead hvalue) (fun r t ht => ?_) fun _ _ h => h
    obtain ⟨rfl, ht⟩ := ht
    rw [if_pos rfl, wp_modify]
    have hworks : s.works = (false, s.mChildren) := Prod.ext hwork rfl
    refine ⟨⟨ht.current, List.isChain_nil, fun _ => ⟨rfl, ht.works.trans hworks⟩⟩, ?_⟩
    exact ht.logged.of_quiet (List.append_nil _).symm (fun _ => le_rfl) (by simp)
  · push Not at hhead
    obtain ⟨lcd, hmem, hlate⟩ := hhead
    obtain ⟨rest, hbuf⟩ := List.head?_eq_some_iff.mp hmem
    rw [hbuf]
    refine replayBuffered_overshoot hlate ?_
    obtain ⟨last, hlast⟩ : ∃ last, (lcd :: rest).getLast? = some last :=
      Option.isSome_iff_exists.mp (by simp)
    simp only [Bool.false_eq_true, if_false, hlast, wp_bind, wp_get, record, wp_modify]
    refine wp_mono (startCatchUp_spec hcur List.isChain_nil (fun _ => getCatchupMode_ne) hwork
      (fun _ => ⟨s.lcl, _, List.mem_append_right _ (List.mem_singleton.mpr rfl)⟩)
      (hlog.overshot lcd.mLedgerSeq (rest.map LedgerCloseData.mLedgerSeq) (by simp) hlate rfl))
      (fun _ t ht => ⟨ht.2.1.ending ht.1 _, ht.2.2⟩) fun _ _ h => h

/-! ## One input -/

/-- A minimal or recent catchup does not end below the last closed ledger. `ApplyBucketsWork`
refuses to apply an earlier one. -/
def Input.NotBelow (s : LedgerManager) : Input → Prop
  | .historyCaughtup false .CATCHUP_MINIMAL lastClosed => s.lcl ≤ lastClosed.header.ledgerSeq
  | .historyCaughtup false .CATCHUP_RECENT lastClosed => s.lcl ≤ lastClosed.header.ledgerSeq
  | _ => True

/-- A completion reports what the works report: a complete catchup ends with the last ledger it has
closed, and the header that catchup ends with carries the value that consensus gave for it. The
operator cannot ask for a repair. -/
def Input.Faithful (s : LedgerManager) : Input → Prop
  | .catchup _ mode => mode ≠ .CATCHUP_BUCKET_REPAIR
  | .historyCaughtup false mode lastClosed =>
    mode ≠ .CATCHUP_BUCKET_REPAIR ∧
    (mode = .CATCHUP_COMPLETE → lastClosed = s.mLastClosedLedger) ∧
    ∀ lcd ∈ s.mSyncingLedgers, lcd.mLedgerSeq = lastClosed.header.ledgerSeq →
      lcd.mValue = lastClosed.header.scpValue
  | _ => True

theorem makeCurrentLedger_spec {lastClosed : LedgerHeaderHistoryEntry}
    (hlast : s.mLastClosedLedger = lastClosed) (hlog : Logged up s) :
    wp (app.makeCurrentLedger lastClosed)
      (fun _ t => t = { s with mCurrentLedger := Application.nextHeader lastClosed } ∧
        t.mCurrentLedger.ledgerSeq = t.lcl + 1 ∧ Logged up t)
      (Dies up faithful) s := by
  unfold Application.makeCurrentLedger
  simp only [wp_bind, wp_require, wp_modify]
  refine ⟨fun _ => ⟨by simp, ?_, ?_⟩, fun _ => Dies.of_exception hlog (by simp)⟩
  · show lastClosed.header.ledgerSeq + 1 = s.lcl + 1
    rw [LedgerManager.lcl, hlast]
  · exact hlog.of_quiet (List.append_nil _).symm (fun _ => le_rfl) (by simp)

theorem historyCaughtup_spec {ec : Bool} {mode : CatchupMode} {lastClosed : LedgerHeaderHistoryEntry}
    (hs : Ordered s) (hwork : s.mCatchupWork = false) (hlog : Logged up s)
    (hup : up → (Input.historyCaughtup ec mode lastClosed).NotBelow s)
    (hfaithful : faithful → (Input.historyCaughtup ec mode lastClosed).Faithful s) :
    wp (app.historyCaughtup ec mode lastClosed)
      (fun _ t => (ec = false ∧ mode = .CATCHUP_RECENT → Ordered t) ∧ Ending s.mChildren t ∧
        Logged up t)
      (Dies up faithful) s := by
  have hending : Ending s.mChildren s :=
    ⟨hs.current, hs.contiguous, fun hne => ⟨(hs.idle hne).1, Prod.ext hwork rfl⟩⟩
  unfold Application.historyCaughtup
  cases ec with
  | true =>
    rw [if_pos rfl, wp_modify]
    exact ⟨fun h => absurd h.1 (by simp), ⟨hs.current, List.isChain_nil, fun _ => ⟨rfl, Prod.ext hwork rfl⟩⟩,
      hlog.of_quiet (List.append_nil _).symm (fun _ => le_rfl) (by simp)⟩
  | false =>
    rw [if_neg (by simp)]
    cases mode with
    | CATCHUP_RECENT =>
      simp only [wp_bind, wp_modify]
      refine wp_mono (makeCurrentLedger_spec rfl (hlog.of_quiet (List.append_nil _).symm hup (by simp)))
        (fun _ t ht => ?_) fun _ _ h => h
      obtain ⟨rfl, hcur, hlog'⟩ := ht
      exact ⟨fun _ => ⟨hcur, hs.contiguous, hs.idle⟩, ⟨hcur, hs.contiguous, hending.idle⟩, hlog'⟩
    | CATCHUP_MINIMAL =>
      simp only [wp_bind, wp_modify]
      refine wp_mono (makeCurrentLedger_spec rfl (hlog.of_quiet (List.append_nil _).symm hup (by simp)))
        (fun _ t ht => ?_) fun _ _ h => h
      obtain ⟨rfl, hcur, hlog'⟩ := ht
      exact wp_mono (applyBuffered_spec hcur hlog' hs.contiguous hwork fun hf => (hfaithful hf).2.2)
        (fun _ _ h => ⟨fun hrecent => absurd hrecent.2 (by simp), h⟩) fun _ _ h => h
    | CATCHUP_COMPLETE =>
      simp only [wp_bind, wp_get, wp_require]
      refine ⟨fun _ => ⟨fun _ => ⟨fun hheader => ?_,
        fun hbad => ⟨hlog, rfl, fun hf => ?_, fun h => by cases h⟩⟩,
        fun hbad => ⟨hlog, rfl, fun hf => ?_, fun h => by cases h⟩⟩, fun hbad => by simp at hbad⟩
      · refine wp_mono (applyBuffered_spec hs.current hlog hs.contiguous hwork
          fun hf lcd hmem hknit => ?_) (fun _ _ h => ⟨fun hrecent => absurd hrecent.2 (by simp), h⟩) fun _ _ h => h
        rw [← decide_eq_true_eq.mp hheader]
        refine (hfaithful hf).2.2 lcd hmem ?_
        rw [decide_eq_true_eq.mp hheader]
        exact hknit
      · simp [(hfaithful hf).2.1 rfl] at hbad
      · simp [(hfaithful hf).2.1 rfl] at hbad
    | CATCHUP_BUCKET_REPAIR =>
      simp only [wp_bind, wp_require]
      refine ⟨fun hbad => by simp at hbad, fun _ => ⟨hlog, rfl, fun hf => ?_, fun h => by cases h⟩⟩
      exact absurd rfl (hfaithful hf).1

theorem completeCatchup_spec {ec : Bool} {mode : CatchupMode} {lastClosed : LedgerHeaderHistoryEntry}
    (hs : Ordered s) (hlog : Logged up s)
    (hup : up → (Input.historyCaughtup ec mode lastClosed).NotBelow s)
    (hfaithful : faithful → (Input.historyCaughtup ec mode lastClosed).Faithful s) :
    wp (app.completeCatchup ec mode lastClosed) (fun _ t => Ordered t ∧ Logged up t)
      (Dies up faithful) s := by
  have hdropped : Ordered { s with mCatchupWork := false } :=
    ⟨hs.current, hs.contiguous, fun hne =>
      ⟨(hs.idle hne).1, Prod.ext rfl (Prod.mk.inj (hs.idle hne).2).2⟩⟩
  have hlog' : Logged up { s with mCatchupWork := false } :=
    hlog.of_quiet (List.append_nil _).symm (fun _ => le_rfl) (by simp)
  unfold Application.completeCatchup
  simp only [wp_bind, wp_modify, wp_get]
  refine wp_mono (historyCaughtup_spec hdropped rfl hlog' hup hfaithful) (fun _ t ht => ?_)
    fun _ _ h => h
  obtain ⟨hordered, hending, hlog''⟩ := ht
  refine (wp_ite _ _).mpr ⟨fun hrecent => ⟨hordered hrecent, hlog''⟩, fun _ => ?_⟩
  rw [wp_modify]
  exact ⟨hending.notified, hlog''.of_quiet (List.append_nil _).symm (fun _ => le_rfl) (by simp)⟩

theorem step_spec {i : Input} (hs : Ordered s) (hlog : Logged up s) (hup : up → i.NotBelow s)
    (hfaithful : faithful → i.Faithful s) :
    wp (app.step i) (fun _ t => Ordered t ∧ Logged up t) (Dies up faithful) s := by
  cases i with
  | externalizeValue ledgerData => exact externalizeValue_spec hs hlog
  | catchup ledger mode => exact catchup_spec hs hlog hfaithful
  | replay hHeader txset => exact replay_spec hs hlog
  | historyCaughtup ec mode lastClosed => exact completeCatchup_spec hs hlog hup hfaithful

/-! ## Whole runs -/

theorem ordered_loaded (lastClosed : LedgerHeaderHistoryEntry) :
    Ordered (Application.loaded lastClosed) :=
  ⟨rfl, List.isChain_nil, fun _ => ⟨rfl, rfl⟩⟩

theorem logged_loaded (lastClosed : LedgerHeaderHistoryEntry) :
    Logged up (Application.loaded lastClosed) where
  calls _ _ h := by cases h
  increasing _ _ := ⟨List.Pairwise.nil, fun _ h => by cases h⟩
  overshoots _ _ h := by cases h

/-- Every input of a run satisfies `P` in the state it arrives in. -/
def Application.Along (app : Application) (lastClosed : LedgerHeaderHistoryEntry)
    (P : LedgerManager → Input → Prop) (inputs : List Input) : Prop :=
  ∀ pre i post s, inputs = pre ++ i :: post →
    runInputs app.step pre (Application.loaded lastClosed) = .ok () s → P s i

theorem run_spec (app : Application) (lastClosed : LedgerHeaderHistoryEntry) (inputs : List Input) :
    wp (runInputs app.step inputs)
      (fun _ t => Ordered t ∧ Logged (app.Along lastClosed (fun s i => i.NotBelow s) inputs) t)
      (Dies (app.Along lastClosed (fun s i => i.NotBelow s) inputs)
        (app.Along lastClosed (fun s i => i.Faithful s) inputs))
      (Application.loaded lastClosed) := by
  refine wp_runInputs ⟨ordered_loaded lastClosed, logged_loaded lastClosed⟩
    fun pre i post s heq hrun hinv => ?_
  exact step_spec hinv.1 hinv.2 (fun h => h pre i post s heq hrun) fun h => h pre i post s heq hrun

end Invariants

/-- **Ledgers are closed once and in order**, over every sequence of inputs: values from consensus
with any numbers, operator commands, replayed headers and completions of catchup. -/
theorem run_closes_in_order (app : Application) (lastClosed : LedgerHeaderHistoryEntry)
    (inputs : List Input) :
    -- `closeLedger` is called for the ledger after the last closed one
    (∀ lcl seq, .closeLedger lcl seq ∈ (app.managerAfter lastClosed inputs).log →
      seq = lcl + 1) ∧
    -- the ledgers are closed in increasing order
    (app.Along lastClosed (fun s i => i.NotBelow s) inputs →
      0 ∉ closed (app.managerAfter lastClosed inputs).log →
      (closed (app.managerAfter lastClosed inputs).log).Pairwise (· < ·)) ∧
    -- the buffer is contiguous, and empty unless the node is catching up
    (app.faultAfter lastClosed inputs = none →
      Contiguous (app.managerAfter lastClosed inputs).mSyncingLedgers ∧
      ((app.managerAfter lastClosed inputs).mState ≠ .LM_CATCHING_UP_STATE →
        (app.managerAfter lastClosed inputs).mSyncingLedgers = [])) ∧
    -- the buffer is dropped only if it starts too late
    (∀ lcl buffered, .overshoot lcl buffered ∈ (app.managerAfter lastClosed inputs).log →
      ∃ first rest, buffered = first :: rest ∧ lcl + 1 < first) ∧
    -- the assertions hold
    (∀ e, app.faultAfter lastClosed inputs = some e → e.unreachable = false ∧
      (app.Along lastClosed (fun s i => i.Faithful s) inputs → e.isException = true) ∧
      -- a new catchup is refused only after the buffer was dropped
      (e = .duplicateChildWork →
        ∃ lcl buffered, .overshoot lcl buffered ∈ (app.managerAfter lastClosed inputs).log)) := by
  have hwp := run_spec app lastClosed inputs
  unfold Application.managerAfter Application.faultAfter
  unfold wp at hwp
  cases hrun : runInputs app.step inputs (Application.loaded lastClosed) with
  | ok u s =>
    rw [hrun] at hwp
    obtain ⟨hs, hlog⟩ := hwp
    refine ⟨hlog.calls, fun hup h0 => (hlog.increasing hup h0).1, fun _ => ?_, hlog.overshoots,
      fun e he => by cases he⟩
    exact ⟨hs.contiguous, fun hne => (hs.idle hne).1⟩
  | error e s =>
    rw [hrun] at hwp
    refine ⟨hwp.logged.calls, fun hup h0 => (hwp.logged.increasing hup h0).1, fun h => (by cases h),
      hwp.logged.overshoots, fun e' he => ?_⟩
    obtain rfl := Option.some.inj he
    exact ⟨hwp.reachable, hwp.exception, hwp.duplicate⟩

/-! ## A node that catches up -/

/-- A node with minimal catchup. -/
def minimalNode : Application where
  CATCHUP_COMPLETE := false
  CATCHUP_RECENT := 0
  sha256 header := header.ledgerSeq
  applyLedger _ _ := some (0, 0)

/-- The header of ledger `n`, where every hash is the ledger's number. -/
def headerOf (n : Uint32) : LedgerHeaderHistoryEntry :=
  ⟨n, { previousLedgerHash := n - 1, scpValue := ⟨0, 0⟩, ledgerSeq := n }⟩

/-- The value that consensus gives for ledger `n`. -/
def valueOf (n : Uint32) : LedgerCloseData where
  mLedgerSeq := n
  mTxSet := ⟨n - 1, 0⟩
  mValue := ⟨0, 0⟩
  txSet_value := rfl

/-- The node hears of ledger 11, catches up to ledger 11, and closes ledger 12. -/
def runWithCatchup : List Input :=
  [.externalizeValue (valueOf 11), .historyCaughtup false .CATCHUP_MINIMAL (headerOf 11),
    .externalizeValue (valueOf 12)]

theorem run_closes_in_order_runWithCatchup :
    minimalNode.Along (headerOf 1) (fun s i => i.NotBelow s) runWithCatchup ∧
    closed (minimalNode.managerAfter (headerOf 1) runWithCatchup).log = [12] ∧
    (closed (minimalNode.managerAfter (headerOf 1) runWithCatchup).log).Pairwise (· < ·) ∧
    (minimalNode.managerAfter (headerOf 1) runWithCatchup).mSyncingLedgers = [] := by
  have halong : minimalNode.Along (headerOf 1) (fun s i => i.NotBelow s) runWithCatchup := by
    intro pre i post s heq hrun
    cases pre with
    | nil =>
      obtain ⟨rfl, -⟩ := List.cons.inj heq
      trivial
    | cons i₁ pre =>
      obtain ⟨rfl, heq₁⟩ := List.cons.inj heq
      cases pre with
      | nil =>
        obtain ⟨rfl, -⟩ := List.cons.inj heq₁
        have hs : minimalNode.managerAfter (headerOf 1) [.externalizeValue (valueOf 11)] = s := by
          rw [Application.managerAfter, hrun]
        show s.lcl ≤ 11
        rw [← hs]
        decide +kernel
      | cons i₂ pre =>
        obtain ⟨rfl, heq₂⟩ := List.cons.inj heq₁
        cases pre with
        | nil =>
          obtain ⟨rfl, -⟩ := List.cons.inj heq₂
          trivial
        | cons i₃ pre =>
          obtain ⟨-, heq₃⟩ := List.cons.inj heq₂
          simp at heq₃
  obtain ⟨-, hincreasing, hbuffer, -⟩ := run_closes_in_order minimalNode (headerOf 1) runWithCatchup
  exact ⟨halong, by decide +kernel, hincreasing halong (by decide +kernel),
    (hbuffer (by decide +kernel)).2 (by decide +kernel)⟩

/-- The operator of a node that is in sync asks for ledger 64. Catchup ends with the last checkpoint
before it, and the first ledger that the node hears of meanwhile is 200. -/
def runToOvershoot : List Input :=
  [.externalizeValue (valueOf 2), .catchup 64 .CATCHUP_MINIMAL, .externalizeValue (valueOf 200),
    .historyCaughtup false .CATCHUP_MINIMAL (headerOf 63)]

/-- Catchup can end before the buffer starts, and the process goes on; and the ledgers that a
minimal catchup jumps over are not closed. -/
theorem catchup_overshoots :
    minimalNode.faultAfter (headerOf 1) runToOvershoot = none ∧
    .overshoot 63 [200] ∈ (minimalNode.managerAfter (headerOf 1) runToOvershoot).log ∧
    (minimalNode.managerAfter (headerOf 1) runToOvershoot).mChildren = [(.CATCHUP_MINIMAL, 200)] ∧
    (minimalNode.managerAfter (headerOf 1) runWithCatchup).lcl = 12 ∧
    2 ∉ closed (minimalNode.managerAfter (headerOf 1) runWithCatchup).log := by
  decide +kernel

end SmartCore.History
