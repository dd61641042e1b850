import Mathlib.Algebra.Group.Nat.Defs
import Mathlib.Algebra.Order.Monoid.Unbundled.Basic
import Mathlib.Data.List.MinMax
import Mathlib.Tactic.Common

/-!
# Publishing and trimming history

Every 64th ledger is a checkpoint. When it is closed, `HistoryManager` puts it into a queue in the
database, and its publication to the archives is started: at once if no other is running, otherwise
when the one that runs has ended and a callback that was posted then takes the oldest checkpoint from
the queue. `ExternalQueue::process` deletes old rows of history at any time; what is still to be
published, and what a subscriber has not read, must not be among them.

**Theorem (`history_kept`).** In every run the queued checkpoints tile the ledgers, and the rows of a
checkpoint that is queued, or will be, are in the database. What `process` deletes every subscriber
has read, unless a cursor is `2 ^ 31` or more: `lastread` is an `int`, and such a cursor is the least
of all (`unread_rows_deleted`).

**Theorem (`published_in_order`).** Checkpoints are published in order in every run in which, when one
is queued, a publication is running or nothing else is queued. Otherwise a checkpoint that is queued
between the end of one publication and the callback overtakes the ones that wait
(`newer_checkpoint_first`).

A ledger number is a natural number, and stands for the state of the ledger that is published with it.
-/

namespace SmartCore.History.HistoryManager

/-! ## Checkpoints -/

structure Config where
  ARTIFICIALLY_ACCELERATE_TIME_FOR_TESTING : Bool := false
  /-- some archive of `HISTORY` has a `get` and a `put` command -/
  hasAnyWritableHistoryArchive : Bool := true
deriving DecidableEq, Repr

namespace Config

variable (cfg : Config)

def getCheckpointFrequency : ℕ :=
  if cfg.ARTIFICIALLY_ACCELERATE_TIME_FOR_TESTING then 8 else 64

def prevCheckpointLedger (ledger : ℕ) : ℕ :=
  ledger / cfg.getCheckpointFrequency * cfg.getCheckpointFrequency

def nextCheckpointLedger (ledger : ℕ) : ℕ :=
  let freq := cfg.getCheckpointFrequency
  if ledger = 0 then freq else (ledger + freq - 1) / freq * freq

end Config

/-! ## State -/

/-- A row of `txhistory`. -/
structure TxHistory where
  ledgerseq : ℕ
  txindex : ℕ
deriving DecidableEq, Repr

structure State where
  -- the database
  ledgerheaders : List ℕ := [1]
  txhistory : List TxHistory := []
  publishqueue : List ℕ := []
  /-- `lastread` is an `INTEGER`: `soci` exchanges a `uint32` as the `int` with the same bits -/
  pubsub : List (String × BitVec 32) := []
  -- the node
  lastClosedLedgerNum : ℕ := 1
  mPublishWork : Option ℕ := none
  /-- the publications that the work manager has -/
  works : List ℕ := []
  /-- the number of callbacks that wait to run -/
  posted : ℕ := 0
  -- what has happened: no code reads it
  /-- the checkpoints queued, and those started and published, in order of time -/
  queued : List ℕ := []
  started : List ℕ := []
  published : List ℕ := []
  /-- the transactions of all ledgers -/
  applied : List TxHistory := []
deriving DecidableEq, Repr

variable (cfg : Config)

/-! ## Publishing -/

def takeSnapshotAndPublish (ledgerSeq : ℕ) (s : State) : State :=
  if s.mPublishWork.isSome then s
  else
    { s with
      mPublishWork := some ledgerSeq
      works := ledgerSeq :: s.works
      started := s.started ++ [ledgerSeq] }

/-- The oldest that is queued. -/
def publishQueuedHistory (s : State) : State :=
  match s.publishqueue.min? with
  | some ledgerSeq => takeSnapshotAndPublish ledgerSeq s
  | none => s

def queueCurrentHistory (s : State) : State :=
  takeSnapshotAndPublish s.lastClosedLedgerNum
    { s with
      publishqueue := s.publishqueue ++ [s.lastClosedLedgerNum]
      queued := s.queued ++ [s.lastClosedLedgerNum] }

/-- Whether the ledger after the last closed one starts a checkpoint. -/
def isCheckpoint (lastClosedLedgerNum : ℕ) : Bool :=
  lastClosedLedgerNum + 1 = cfg.nextCheckpointLedger (lastClosedLedgerNum + 1)

def maybeQueueHistoryCheckpoint (s : State) : State :=
  if !isCheckpoint cfg s.lastClosedLedgerNum then s
  else if !cfg.hasAnyWritableHistoryArchive then s
  else queueCurrentHistory s

/-- The end of `closeLedger`, after a ledger with `numTxs` transactions was applied. -/
def closeLedger (numTxs : ℕ) (s : State) : State :=
  let ledgerSeq := s.lastClosedLedgerNum + 1
  let txs := (List.range numTxs).map fun i => ⟨ledgerSeq, i + 1⟩
  publishQueuedHistory (maybeQueueHistoryCheckpoint cfg
    { s with
      lastClosedLedgerNum := ledgerSeq
      ledgerheaders := s.ledgerheaders ++ [ledgerSeq]
      txhistory := s.txhistory ++ txs
      applied := s.applied ++ txs })

/-- A publication ends. -/
def historyPublished (ledgerSeq : ℕ) (success : Bool) (s : State) : State :=
  let s := if success then
      { s with
        publishqueue := s.publishqueue.filter (· ≠ ledgerSeq)
        published := s.published ++ [ledgerSeq] }
    else s
  { s with mPublishWork := none, works := s.works.erase ledgerSeq, posted := s.posted + 1 }

/-- What `writeHistoryBlocks` writes for a checkpoint, and whether it is complete. -/
def writeHistoryBlocks (currentLedger : ℕ) (s : State) : List ℕ × List TxHistory × Bool :=
  let start := cfg.prevCheckpointLedger currentLedger
  let count := currentLedger - start + 1
  let headers := s.ledgerheaders.filter fun n => start ≤ n ∧ n < start + count
  let txs := s.txhistory.filter fun tx => start ≤ tx.ledgerseq ∧ tx.ledgerseq < start + count
  (headers, txs, (start = 0 ∧ headers.length = count - 1) ∨ headers.length = count)

/-! ## Trimming -/

/-- `^[A-Z][A-Z0-9]{0,31}$` -/
def validateResourceID (resid : String) : Bool :=
  match resid.toList with
  | [] => false
  | c :: cs => c.isUpper && cs.all (fun c => c.isUpper || c.isDigit) && cs.length ≤ 31

/-- An invalid resource is refused by an exception. -/
def setCursorForResource (resid : String) (cursor : BitVec 32) (s : State) : State :=
  if !validateResourceID resid then s
  else
    match s.pubsub.lookup resid with
    | none => { s with pubsub := (resid, cursor) :: s.pubsub }
    | some _ =>
      { s with pubsub := s.pubsub.map fun row => if row.1 = resid then (resid, cursor) else row }

def deleteCursor (resid : String) (s : State) : State :=
  if !validateResourceID resid then s
  else { s with pubsub := s.pubsub.filter fun row => row.1 ≠ resid }

/-- `SELECT MIN(lastread)`, read into an `int` and then taken as a `uint32_t`. -/
def rmin (s : State) : ℕ :=
  match (s.pubsub.map (·.2.toInt)).min? with
  | some m => (BitVec.ofInt 32 m).toNat
  -- if there are no subscribers, take this as maxint
  | none => 2 ^ 32 - 1

/-- The last ledger whose rows `process` deletes. -/
def trimTo (s : State) : ℕ :=
  let lcl := s.lastClosedLedgerNum
  let ql := s.publishqueue.min?.getD 0
  let qmin := if ql = 0 then lcl else min ql lcl
  let freq := cfg.getCheckpointFrequency
  let lmin := if freq ≤ qmin then qmin - freq else 0
  min lmin (rmin s)

def deleteOldEntries (ledgerSeq : ℕ) (s : State) : State :=
  { s with
    ledgerheaders := s.ledgerheaders.filter fun n => ¬ n ≤ ledgerSeq
    txhistory := s.txhistory.filter fun tx => ¬ tx.ledgerseq ≤ ledgerSeq }

def process (s : State) : State := deleteOldEntries (trimTo cfg s) s

/-! ## Runs -/

inductive Event where
  | closeLedger (numTxs : ℕ)
  /-- a publication ends -/
  | historyPublished (ledgerSeq : ℕ) (success : Bool)
  /-- a callback runs -/
  | callback
  | setCursor (resid : String) (cursor : BitVec 32)
  | deleteCursor (resid : String)
  | process
  /-- the node stops, at any time, and starts again -/
  | restart
deriving DecidableEq, Repr

/-- One event. A publication ends only if there is one, and a callback runs only if it was posted. -/
def step (s : State) : Event → State
  | .closeLedger numTxs => closeLedger cfg numTxs s
  | .historyPublished ledgerSeq success =>
    if ledgerSeq ∈ s.works then historyPublished ledgerSeq success s else s
  | .callback =>
    if 0 < s.posted then publishQueuedHistory { s with posted := s.posted - 1 } else s
  | .setCursor resid cursor => setCursorForResource resid cursor s
  | .deleteCursor resid => deleteCursor resid s
  | .process => process cfg s
  | .restart => publishQueuedHistory { s with mPublishWork := none, works := [], posted := 0 }

/-- The state after the events, from the ledger 1. -/
def run (events : List Event) : State := events.foldl (step cfg) {}

/-! ## The arithmetic of checkpoints -/

section Checkpoints

variable {cfg}

theorem freq_cases (cfg : Config) : cfg.getCheckpointFrequency = 8 ∨ cfg.getCheckpointFrequency = 64 := by
  unfold Config.getCheckpointFrequency
  split_ifs
  · exact Or.inl rfl
  · exact Or.inr rfl

/-- A checkpoint is the last ledger before a multiple of the frequency. -/
theorem isCheckpoint_iff {n : ℕ} :
    isCheckpoint cfg n = true ↔ (n + 1) % cfg.getCheckpointFrequency = 0 := by
  unfold isCheckpoint
  rw [decide_eq_true_iff]
  unfold Config.nextCheckpointLedger
  rw [if_neg (Nat.succ_ne_zero n)]
  rcases freq_cases cfg with h | h <;> rw [h] <;> omega

theorem prevCheckpointLedger_of_isCheckpoint {c : ℕ} (h : isCheckpoint cfg c = true) :
    cfg.prevCheckpointLedger c + cfg.getCheckpointFrequency = c + 1 := by
  rw [isCheckpoint_iff] at h
  unfold Config.prevCheckpointLedger
  rcases freq_cases cfg with hf | hf <;> rw [hf] at h ⊢ <;> omega

/-- Different checkpoints have different ranges, one after the other. -/
theorem lt_prevCheckpointLedger {c c' : ℕ} (h : isCheckpoint cfg c = true)
    (h' : isCheckpoint cfg c' = true) (hlt : c < c') : c < cfg.prevCheckpointLedger c' := by
  have hprev := prevCheckpointLedger_of_isCheckpoint h'
  rw [isCheckpoint_iff] at h h'
  rcases freq_cases cfg with hf | hf <;> rw [hf] at h h' hprev <;> omega

/-- The checkpoint that a ledger is in. -/
theorem exists_isCheckpoint (cfg : Config) (n : ℕ) :
    ∃ c, isCheckpoint cfg c = true ∧ cfg.prevCheckpointLedger c ≤ n ∧ n ≤ c := by
  refine ⟨cfg.prevCheckpointLedger n + cfg.getCheckpointFrequency - 1, ?_, ?_, ?_⟩
  · rw [isCheckpoint_iff]
    unfold Config.prevCheckpointLedger
    rcases freq_cases cfg with hf | hf <;> rw [hf] <;> omega
  · unfold Config.prevCheckpointLedger
    rcases freq_cases cfg with hf | hf <;> rw [hf] <;> omega
  · unfold Config.prevCheckpointLedger
    rcases freq_cases cfg with hf | hf <;> rw [hf] <;> omega

end Checkpoints

/-! ## What is queued, and what is kept -/

/-- Everything but which publications there are. -/
def SameRows (s s' : State) : Prop :=
  s' = { s with
    mPublishWork := s'.mPublishWork, works := s'.works, posted := s'.posted, started := s'.started }

theorem SameRows.trans {s t u : State} (h : SameRows s t) (h' : SameRows t u) : SameRows s u := by
  unfold SameRows at *
  rw [h', h]

theorem takeSnapshotAndPublish_rows (ledgerSeq : ℕ) (s : State) :
    SameRows s (takeSnapshotAndPublish ledgerSeq s) := by
  unfold takeSnapshotAndPublish
  split <;> rfl

theorem publishQueuedHistory_rows (s : State) : SameRows s (publishQueuedHistory s) := by
  unfold publishQueuedHistory
  split
  · exact takeSnapshotAndPublish_rows _ s
  · rfl

@[simp] theorem publishQueuedHistory_publishqueue (s : State) :
    (publishQueuedHistory s).publishqueue = s.publishqueue := by
  rw [publishQueuedHistory_rows s]

@[simp] theorem publishQueuedHistory_lastClosedLedgerNum (s : State) :
    (publishQueuedHistory s).lastClosedLedgerNum = s.lastClosedLedgerNum := by
  rw [publishQueuedHistory_rows s]

/-- What holds of the rows in every state. `m` is the last ledger whose rows were deleted. -/
structure Kept (m : ℕ) (s : State) : Prop where
  headers : s.ledgerheaders = (List.range' 1 s.lastClosedLedgerNum).filter (m < ·)
  txs : s.txhistory = s.applied.filter (m < ·.ledgerseq)
  applied : ∀ tx ∈ s.applied, 1 ≤ tx.ledgerseq ∧ tx.ledgerseq ≤ s.lastClosedLedgerNum
  trimmed : m = 0 ∨ m + cfg.getCheckpointFrequency ≤ s.lastClosedLedgerNum ∧
    ∀ c ∈ s.publishqueue, m + cfg.getCheckpointFrequency ≤ c

/-- What holds of the queue. -/
structure Queued (s : State) : Prop where
  closed : 1 ≤ s.lastClosedLedgerNum
  checkpoints : ∀ c ∈ s.queued, isCheckpoint cfg c = true ∧ c ≤ s.lastClosedLedgerNum
  complete : cfg.hasAnyWritableHistoryArchive = true →
    ∀ c ≤ s.lastClosedLedgerNum, isCheckpoint cfg c = true → c ∈ s.queued
  sorted : s.queued.Pairwise (· < ·)
  published : ∀ c ∈ s.published, c ∈ s.queued
  queue : s.publishqueue = s.queued.filter (· ∉ s.published)

section Invariants

variable {cfg} {m : ℕ} {s s' : State}

theorem Kept.of_sameRows (h : Kept cfg m s) (hs : SameRows s s') : Kept cfg m s' := by
  rw [hs]
  exact ⟨h.headers, h.txs, h.applied, h.trimmed⟩

theorem Queued.of_sameRows (h : Queued cfg s) (hs : SameRows s s') : Queued cfg s' := by
  rw [hs]
  exact ⟨h.closed, h.checkpoints, h.complete, h.sorted, h.published, h.queue⟩

theorem Queued.mem_queue (h : Queued cfg s) {c : ℕ} :
    c ∈ s.publishqueue ↔ c ∈ s.queued ∧ c ∉ s.published := by
  rw [h.queue]
  simp

/-- The last closed ledger is queued. -/
def withQueued (s : State) : State :=
  { s with
    publishqueue := s.publishqueue ++ [s.lastClosedLedgerNum]
    queued := s.queued ++ [s.lastClosedLedgerNum] }

theorem queueCurrentHistory_rows (s : State) : SameRows (withQueued s) (queueCurrentHistory s) :=
  takeSnapshotAndPublish_rows _ _

/-- The rows of the ledger that is closed. -/
def withLedger (numTxs : ℕ) (s : State) : State :=
  let ledgerSeq := s.lastClosedLedgerNum + 1
  let txs := (List.range numTxs).map fun i => ⟨ledgerSeq, i + 1⟩
  { s with
    lastClosedLedgerNum := ledgerSeq
    ledgerheaders := s.ledgerheaders ++ [ledgerSeq]
    txhistory := s.txhistory ++ txs
    applied := s.applied ++ txs }

theorem closeLedger_eq (numTxs : ℕ) (s : State) :
    closeLedger cfg numTxs s =
      publishQueuedHistory (maybeQueueHistoryCheckpoint cfg (withLedger numTxs s)) := rfl

@[simp] theorem withLedger_lastClosedLedgerNum (numTxs : ℕ) (s : State) :
    (withLedger numTxs s).lastClosedLedgerNum = s.lastClosedLedgerNum + 1 := rfl

theorem Kept.withLedger (h : Kept cfg m s) (numTxs : ℕ) : Kept cfg m (withLedger numTxs s) := by
  have hm : m < s.lastClosedLedgerNum + 1 := by
    rcases h.trimmed with h | h
    · omega
    · omega
  refine ⟨?_, ?_, fun tx htx => ?_, h.trimmed.imp_right fun h => ⟨?_, h.2⟩⟩
  · show s.ledgerheaders ++ [_] = (List.range' 1 (s.lastClosedLedgerNum + 1)).filter (m < ·)
    rw [List.range'_concat, List.filter_append, h.headers]
    simp [Nat.add_comm, hm]
  · show s.txhistory ++ _ = (s.applied ++ _).filter _
    rw [List.filter_append, h.txs, List.append_cancel_left_eq, eq_comm, List.filter_eq_self]
    intro tx htx
    obtain ⟨i, -, rfl⟩ := List.mem_map.mp htx
    simpa using hm
  · rcases List.mem_append.mp htx with htx | htx
    · obtain ⟨hpos, hle⟩ := h.applied tx htx
      exact ⟨hpos, hle.trans (Nat.le_succ _)⟩
    · obtain ⟨i, -, rfl⟩ := List.mem_map.mp htx
      exact ⟨Nat.le_add_left 1 _, le_rfl⟩
  · show m + _ ≤ s.lastClosedLedgerNum + 1
    omega

/-- What a close does to the rows: the checkpoint is queued, or it is none. -/
theorem closeLedger_rows (cfg : Config) (numTxs : ℕ) (s : State) :
    SameRows (withLedger numTxs s) (closeLedger cfg numTxs s) ∧
        (cfg.hasAnyWritableHistoryArchive = true →
          isCheckpoint cfg (s.lastClosedLedgerNum + 1) = false) ∨
      isCheckpoint cfg (s.lastClosedLedgerNum + 1) = true ∧
        SameRows (withQueued (withLedger numTxs s)) (closeLedger cfg numTxs s) := by
  have hqueued : SameRows (maybeQueueHistoryCheckpoint cfg (withLedger numTxs s))
      (closeLedger cfg numTxs s) := publishQueuedHistory_rows _
  unfold maybeQueueHistoryCheckpoint at hqueued
  split_ifs at hqueued with hcheck hwritable
  · refine Or.inl ⟨hqueued, fun _ => ?_⟩
    simpa using hcheck
  · refine Or.inl ⟨hqueued, fun htrue => ?_⟩
    rw [htrue] at hwritable
    cases hwritable
  · refine Or.inr ⟨?_, (queueCurrentHistory_rows _).trans hqueued⟩
    simpa using hcheck

theorem Kept.closeLedger (h : Kept cfg m s) (numTxs : ℕ) :
    Kept cfg m (closeLedger cfg numTxs s) := by
  have h := h.withLedger numTxs
  rcases closeLedger_rows cfg numTxs s with ⟨hrows, -⟩ | ⟨-, hrows⟩
  · exact h.of_sameRows hrows
  · suffices hq : Kept cfg m (withQueued (HistoryManager.withLedger numTxs s)) from
      hq.of_sameRows hrows
    refine ⟨h.headers, h.txs, h.applied, ?_⟩
    refine h.trimmed.imp_right fun h => ⟨h.1, fun c hc => ?_⟩
    rcases List.mem_append.mp hc with hc | hc
    · exact h.2 c hc
    · rw [List.mem_singleton.mp hc]
      exact h.1

theorem Queued.closeLedger (h : Queued cfg s) (numTxs : ℕ) :
    Queued cfg (closeLedger cfg numTxs s) := by
  have hle : ∀ c ∈ s.queued, c < s.lastClosedLedgerNum + 1 := fun c hc =>
    Nat.lt_succ_of_le (h.checkpoints c hc).2
  rcases closeLedger_rows cfg numTxs s with ⟨hrows, hnone⟩ | ⟨hcheck, hrows⟩
  · suffices hq : Queued cfg (withLedger numTxs s) from hq.of_sameRows hrows
    refine ⟨Nat.le_succ_of_le h.closed, fun c hc => ?_, fun hw c hc hcheck => ?_, h.sorted,
      h.published, h.queue⟩
    · exact ⟨(h.checkpoints c hc).1, (hle c hc).le⟩
    · refine h.complete hw c ?_ hcheck
      have hc : c ≤ s.lastClosedLedgerNum + 1 := hc
      have hne : c ≠ s.lastClosedLedgerNum + 1 := fun heq => by
        rw [heq, hnone hw] at hcheck
        cases hcheck
      omega
  · have hnot : s.lastClosedLedgerNum + 1 ∉ s.published := fun hmem =>
      absurd (hle _ (h.published _ hmem)) (lt_irrefl _)
    suffices hq : Queued cfg (withQueued (withLedger numTxs s)) from hq.of_sameRows hrows
    refine ⟨Nat.le_succ_of_le h.closed, fun c hc => ?_, fun hw c hc hcheck => ?_, ?_,
      fun c hc => List.mem_append_left _ (h.published c hc), ?_⟩
    · rcases List.mem_append.mp hc with hc | hc
      · exact ⟨(h.checkpoints c hc).1, (hle c hc).le⟩
      · rw [List.mem_singleton.mp hc]
        exact ⟨hcheck, le_rfl⟩
    · have hc : c ≤ s.lastClosedLedgerNum + 1 := hc
      by_cases heq : c = s.lastClosedLedgerNum + 1
      · exact List.mem_append_right _ (List.mem_singleton.mpr heq)
      · exact List.mem_append_left _ (h.complete hw c (by omega) hcheck)
    · refine List.pairwise_append.mpr ⟨h.sorted, List.pairwise_singleton _ _, fun c hc c' hc' => ?_⟩
      rw [List.mem_singleton.mp hc']
      exact hle c hc
    · show s.publishqueue ++ [s.lastClosedLedgerNum + 1] =
        (s.queued ++ [s.lastClosedLedgerNum + 1]).filter (· ∉ s.published)
      rw [List.filter_append, ← h.queue]
      simp [hnot]

theorem Queued.pos_of_mem_queue (h : Queued cfg s) {c : ℕ} (hc : c ∈ s.publishqueue) : 0 < c := by
  have hcheck := (h.checkpoints c (h.mem_queue.mp hc).1).1
  rw [isCheckpoint_iff] at hcheck
  rcases freq_cases cfg with hf | hf <;> rw [hf] at hcheck <;> omega

/-- What is deleted is a checkpoint away from what is queued, and from the last ledger. -/
theorem le_trimTo_iff (h : Queued cfg s) {n : ℕ} (hn : 1 ≤ n) :
    n ≤ trimTo cfg s ↔ (n + cfg.getCheckpointFrequency ≤ s.lastClosedLedgerNum ∧
      ∀ c ∈ s.publishqueue, n + cfg.getCheckpointFrequency ≤ c) ∧ n ≤ rmin s := by
  unfold trimTo
  rw [le_min_iff]
  refine and_congr_left fun _ => ?_
  cases hmin : s.publishqueue.min? with
  | none =>
    have hnil : s.publishqueue = [] := List.min?_eq_none_iff.mp hmin
    simp only [Option.getD_none, if_true, hnil, List.not_mem_nil, false_imp_iff, implies_true,
      and_true]
    split_ifs <;> omega
  | some ql =>
    obtain ⟨hql, hle⟩ := List.min?_eq_some_iff.mp hmin
    have hpos := h.pos_of_mem_queue hql
    have hall : (∀ c ∈ s.publishqueue, n + cfg.getCheckpointFrequency ≤ c) ↔
        n + cfg.getCheckpointFrequency ≤ ql :=
      ⟨fun hc => hc ql hql, fun hc c hmem => hc.trans (hle c hmem)⟩
    simp only [Option.getD_some, if_neg hpos.ne', hall]
    split_ifs <;> omega

theorem trimTo_spec (h : Queued cfg s) :
    trimTo cfg s = 0 ∨ trimTo cfg s + cfg.getCheckpointFrequency ≤ s.lastClosedLedgerNum ∧
      ∀ c ∈ s.publishqueue, trimTo cfg s + cfg.getCheckpointFrequency ≤ c := by
  rcases Nat.eq_zero_or_pos (trimTo cfg s) with hzero | hpos
  · exact Or.inl hzero
  · exact Or.inr ((le_trimTo_iff h hpos).mp le_rfl).1

theorem Kept.process (h : Kept cfg m s) (hq : Queued cfg s) :
    Kept cfg (max m (trimTo cfg s)) (process cfg s) := by
  refine ⟨?_, ?_, h.applied, ?_⟩
  · show s.ledgerheaders.filter _ = _
    rw [h.headers, List.filter_filter]
    refine List.filter_congr fun n _ => ?_
    simp [Bool.and_comm]
  · show s.txhistory.filter _ = _
    rw [h.txs, List.filter_filter]
    refine List.filter_congr fun n _ => ?_
    simp [Bool.and_comm]
  · show max m (trimTo cfg s) = 0 ∨ _ ≤ s.lastClosedLedgerNum ∧ ∀ c ∈ s.publishqueue, _
    rcases trimTo_spec hq with hz | ht
    · rw [hz, Nat.max_zero]
      exact h.trimmed
    · rcases h.trimmed with hm | hm
      · rw [hm, Nat.zero_max]
        exact Or.inr ht
      · refine Or.inr ⟨by omega, fun c hc => ?_⟩
        have h₁ := ht.2 c hc
        have h₂ := hm.2 c hc
        omega

/-- The publications that run are those of the work manager, at most one, and what is published is
queued. -/
structure Active (s : State) : Prop where
  works : s.works = s.mPublishWork.toList
  queued : ∀ c ∈ s.works, c ∈ s.publishqueue

theorem Active.takeSnapshotAndPublish (h : Active s) {c : ℕ} (hc : c ∈ s.publishqueue) :
    Active (takeSnapshotAndPublish c s) := by
  unfold HistoryManager.takeSnapshotAndPublish
  split_ifs with hwork
  · exact h
  · have hnone : s.mPublishWork = none := by simpa using hwork
    refine ⟨?_, fun c' hc' => ?_⟩
    · simp [h.works, hnone]
    · rcases List.mem_cons.mp hc' with rfl | hc'
      · exact hc
      · exact h.queued c' hc'

theorem Active.publishQueuedHistory (h : Active s) : Active (publishQueuedHistory s) := by
  unfold HistoryManager.publishQueuedHistory
  split
  · rename_i c hmin
    exact h.takeSnapshotAndPublish (List.min?_eq_some_iff.mp hmin).1
  · exact h

theorem Active.closeLedger (h : Active s) (numTxs : ℕ) : Active (closeLedger cfg numTxs s) := by
  refine Active.publishQueuedHistory ?_
  unfold maybeQueueHistoryCheckpoint
  split_ifs
  · exact ⟨h.works, h.queued⟩
  · exact ⟨h.works, h.queued⟩
  · have hq : Active (withQueued (withLedger numTxs s)) :=
      ⟨h.works, fun c hc => List.mem_append_left _ (h.queued c hc)⟩
    exact hq.takeSnapshotAndPublish (List.mem_append_right _ (List.mem_singleton.mpr rfl))

/-- The only publication ends. -/
theorem Active.mem_works (h : Active s) {c : ℕ} (hc : c ∈ s.works) :
    s.mPublishWork = some c ∧ s.works = [c] := by
  rw [h.works] at hc ⊢
  have hsome : s.mPublishWork = some c := Option.mem_toList.mp hc
  rw [hsome]
  exact ⟨rfl, rfl⟩

theorem Active.historyPublished (h : Active s) {c : ℕ} (hc : c ∈ s.works) (success : Bool) :
    Active (historyPublished c success s) := by
  obtain ⟨-, hworks⟩ := h.mem_works hc
  have hnil : (HistoryManager.historyPublished c success s).works = [] := by
    unfold HistoryManager.historyPublished
    cases success <;> simp [hworks]
  refine ⟨by rw [hnil]; cases success <;> rfl, fun c' hc' => ?_⟩
  rw [hnil] at hc'
  exact absurd hc' List.not_mem_nil

theorem Kept.historyPublished (h : Kept cfg m s) (c : ℕ) (success : Bool) :
    Kept cfg m (historyPublished c success s) := by
  cases success with
  | false => exact ⟨h.headers, h.txs, h.applied, h.trimmed⟩
  | true =>
    refine ⟨h.headers, h.txs, h.applied, h.trimmed.imp_right fun ht => ⟨ht.1, fun c' hc' => ?_⟩⟩
    exact ht.2 c' (List.mem_filter.mp hc').1

theorem Queued.historyPublished (h : Queued cfg s) {c : ℕ} (hc : c ∈ s.publishqueue)
    (success : Bool) : Queued cfg (historyPublished c success s) := by
  cases success with
  | false => exact ⟨h.closed, h.checkpoints, h.complete, h.sorted, h.published, h.queue⟩
  | true =>
    refine ⟨h.closed, h.checkpoints, h.complete, h.sorted, fun c' hc' => ?_, ?_⟩
    · rcases List.mem_append.mp hc' with hc' | hc'
      · exact h.published c' hc'
      · rw [List.mem_singleton.mp hc']
        exact (h.mem_queue.mp hc).1
    · show s.publishqueue.filter (· ≠ c) = s.queued.filter (· ∉ s.published ++ [c])
      rw [h.queue, List.filter_filter]
      refine List.filter_congr fun c' _ => ?_
      simp [not_or, and_comm]

variable (cfg) in
/-- What holds in every state. -/
structure Inv (s : State) : Prop where
  kept : ∃ m, Kept cfg m s
  queued : Queued cfg s
  active : Active s

theorem Inv.publishQueuedHistory (h : Inv cfg s) : Inv cfg (publishQueuedHistory s) := by
  have hrows := publishQueuedHistory_rows s
  obtain ⟨m, hm⟩ := h.kept
  exact ⟨⟨m, hm.of_sameRows hrows⟩, h.queued.of_sameRows hrows, h.active.publishQueuedHistory⟩

/-- A change of the cursors. -/
theorem Inv.withPubsub (h : Inv cfg s) (pubsub : List (String × BitVec 32)) :
    Inv cfg { s with pubsub := pubsub } := by
  obtain ⟨m, hm⟩ := h.kept
  have hq := h.queued
  exact ⟨⟨m, hm.headers, hm.txs, hm.applied, hm.trimmed⟩,
    ⟨hq.closed, hq.checkpoints, hq.complete, hq.sorted, hq.published, hq.queue⟩, h.active.works,
    h.active.queued⟩

theorem step_inv (h : Inv cfg s) (e : Event) : Inv cfg (step cfg s e) := by
  obtain ⟨m, hm⟩ := h.kept
  cases e with
  | closeLedger numTxs =>
    exact ⟨⟨m, hm.closeLedger numTxs⟩, h.queued.closeLedger numTxs, h.active.closeLedger numTxs⟩
  | historyPublished c success =>
    simp only [step]
    split_ifs with hc
    · exact ⟨⟨m, hm.historyPublished c success⟩,
        h.queued.historyPublished (h.active.queued c hc) success,
        h.active.historyPublished hc success⟩
    · exact h
  | callback =>
    simp only [step]
    split_ifs
    · have hposted : Inv cfg { s with posted := s.posted - 1 } :=
        ⟨⟨m, hm.of_sameRows rfl⟩, h.queued.of_sameRows rfl, h.active.works, h.active.queued⟩
      exact hposted.publishQueuedHistory
    · exact h
  | setCursor resid cursor =>
    simp only [step, setCursorForResource]
    split_ifs
    · exact h
    · split
      · exact h.withPubsub _
      · exact h.withPubsub _
  | deleteCursor resid =>
    simp only [step, deleteCursor]
    split_ifs
    · exact h
    · exact h.withPubsub _
  | process =>
    have hq := h.queued
    exact ⟨⟨_, hm.process hq⟩,
      ⟨hq.closed, hq.checkpoints, hq.complete, hq.sorted, hq.published, hq.queue⟩, h.active.works,
      h.active.queued⟩
  | restart =>
    have hstopped : Inv cfg { s with mPublishWork := none, works := [], posted := 0 } :=
      ⟨⟨m, hm.of_sameRows rfl⟩, h.queued.of_sameRows rfl, rfl, fun c hc => absurd hc List.not_mem_nil⟩
    exact hstopped.publishQueuedHistory

theorem inv_start : Inv cfg {} := by
  refine ⟨⟨0, rfl, rfl, fun tx htx => absurd htx List.not_mem_nil, Or.inl rfl⟩,
    ⟨le_rfl, fun c hc => absurd hc List.not_mem_nil, fun _ c hc hcheck => ?_, List.Pairwise.nil,
      fun c hc => absurd hc List.not_mem_nil, rfl⟩, rfl, fun c hc => absurd hc List.not_mem_nil⟩
  have hc : c ≤ 1 := hc
  rw [isCheckpoint_iff] at hcheck
  rcases freq_cases cfg with hf | hf <;> rw [hf] at hcheck <;> omega

theorem run_append (events : List Event) (e : Event) :
    run cfg (events ++ [e]) = step cfg (run cfg events) e := by
  unfold run
  rw [List.foldl_append, List.foldl_cons, List.foldl_nil]

theorem run_inv (cfg : Config) (events : List Event) : Inv cfg (run cfg events) := by
  induction events using List.reverseRecOn with
  | nil => exact inv_start
  | append_singleton events e ih =>
    rw [run_append]
    exact step_inv ih e

end Invariants

/-! ## History is kept -/

/-- The rows of the range of a checkpoint, as far as its ledgers are closed, are in the database. -/
structure RangeKept (s : State) (c : ℕ) : Prop where
  headers : ∀ n, 1 ≤ n → n ≤ s.lastClosedLedgerNum → cfg.prevCheckpointLedger c ≤ n → n ≤ c →
    n ∈ s.ledgerheaders
  txs : ∀ tx ∈ s.applied, cfg.prevCheckpointLedger c ≤ tx.ledgerseq → tx.ledgerseq ≤ c →
    tx ∈ s.txhistory

section Range

variable {cfg} {m : ℕ} {s : State}

theorem freq_pos (cfg : Config) : 0 < cfg.getCheckpointFrequency := by
  rcases freq_cases cfg with hf | hf <;> omega

/-- The deleted rows are before the range. -/
theorem lt_prevCheckpointLedger_of_trimmed {c : ℕ} (hc : isCheckpoint cfg c = true)
    (hm : m = 0 ∨ m + cfg.getCheckpointFrequency ≤ c) {n : ℕ} (hn : 1 ≤ n)
    (hlow : cfg.prevCheckpointLedger c ≤ n) : m < n := by
  have hprev := prevCheckpointLedger_of_isCheckpoint hc
  omega

theorem Kept.range (h : Kept cfg m s) {c : ℕ} (hc : isCheckpoint cfg c = true)
    (hm : m = 0 ∨ m + cfg.getCheckpointFrequency ≤ c) : RangeKept cfg s c := by
  refine ⟨fun n hn hlcl hlow _ => ?_, fun tx htx hlow _ => ?_⟩
  · rw [h.headers]
    refine List.mem_filter.mpr ⟨List.mem_range'_1.mpr ⟨hn, by omega⟩, ?_⟩
    exact decide_eq_true (lt_prevCheckpointLedger_of_trimmed hc hm hn hlow)
  · rw [h.txs]
    refine List.mem_filter.mpr ⟨htx, ?_⟩
    exact decide_eq_true (lt_prevCheckpointLedger_of_trimmed hc hm (h.applied tx htx).1 hlow)

theorem filter_range' {a b n : ℕ} (ha : 1 ≤ a) (hab : a ≤ b + 1) (hb : b ≤ n) :
    (List.range' 1 n).filter (fun i => a ≤ i ∧ i ≤ b) = List.range' a (b + 1 - a) := by
  have hsplit : List.range' 1 n =
      List.range' 1 (a - 1) ++ (List.range' a (b + 1 - a) ++ List.range' (b + 1) (n - b)) := by
    have h₁ := List.range'_append_1 (s := a) (m := b + 1 - a) (n := n - b)
    have h₂ := List.range'_append_1 (s := 1) (m := a - 1) (n := b + 1 - a + (n - b))
    rw [show a + (b + 1 - a) = b + 1 by omega] at h₁
    rw [show 1 + (a - 1) = a by omega] at h₂
    rw [h₁, h₂]
    congr 1
    omega
  rw [hsplit, List.filter_append, List.filter_append]
  have hlow : (List.range' 1 (a - 1)).filter (fun i => a ≤ i ∧ i ≤ b) = [] := by
    rw [List.filter_eq_nil_iff]
    intro i hi
    rw [List.mem_range'_1] at hi
    rw [decide_eq_true_iff]
    omega
  have hmid : (List.range' a (b + 1 - a)).filter (fun i => a ≤ i ∧ i ≤ b) =
      List.range' a (b + 1 - a) := by
    rw [List.filter_eq_self]
    intro i hi
    rw [List.mem_range'_1] at hi
    rw [decide_eq_true_iff]
    omega
  have hhigh : (List.range' (b + 1) (n - b)).filter (fun i => a ≤ i ∧ i ≤ b) = [] := by
    rw [List.filter_eq_nil_iff]
    intro i hi
    rw [List.mem_range'_1] at hi
    rw [decide_eq_true_iff]
    omega
  rw [hlow, hmid, hhigh, List.nil_append, List.append_nil]

/-- The snapshot of a checkpoint is complete: it has every header and every transaction. -/
theorem Kept.writeHistoryBlocks (h : Kept cfg m s) {c : ℕ} (hc : isCheckpoint cfg c = true)
    (hlcl : c ≤ s.lastClosedLedgerNum) (hm : m = 0 ∨ m + cfg.getCheckpointFrequency ≤ c) :
    writeHistoryBlocks cfg c s =
      (List.range' (max 1 (cfg.prevCheckpointLedger c)) (c + 1 - max 1 (cfg.prevCheckpointLedger c)),
        s.applied.filter fun tx => cfg.prevCheckpointLedger c ≤ tx.ledgerseq ∧ tx.ledgerseq ≤ c,
        true) := by
  have hprev := prevCheckpointLedger_of_isCheckpoint hc
  have hfreq := freq_pos cfg
  have hheaders : s.ledgerheaders.filter (fun n => cfg.prevCheckpointLedger c ≤ n ∧
      n < cfg.prevCheckpointLedger c + (c - cfg.prevCheckpointLedger c + 1)) =
      List.range' (max 1 (cfg.prevCheckpointLedger c))
        (c + 1 - max 1 (cfg.prevCheckpointLedger c)) := by
    rw [h.headers, List.filter_filter, ← filter_range' (by omega) (by omega) hlcl]
    refine List.filter_congr fun n hn => ?_
    rw [List.mem_range'_1] at hn
    rw [Bool.eq_iff_iff]
    simp only [Bool.and_eq_true, decide_eq_true_eq]
    omega
  have htxs : s.txhistory.filter (fun tx => cfg.prevCheckpointLedger c ≤ tx.ledgerseq ∧
      tx.ledgerseq < cfg.prevCheckpointLedger c + (c - cfg.prevCheckpointLedger c + 1)) =
      s.applied.filter fun tx => cfg.prevCheckpointLedger c ≤ tx.ledgerseq ∧ tx.ledgerseq ≤ c := by
    rw [h.txs, List.filter_filter]
    refine List.filter_congr fun tx htx => ?_
    have hpos := (h.applied tx htx).1
    rw [Bool.eq_iff_iff]
    simp only [Bool.and_eq_true, decide_eq_true_eq]
    omega
  unfold HistoryManager.writeHistoryBlocks
  simp only [hheaders, htxs, List.length_range', Prod.mk.injEq, true_and, decide_eq_true_eq]
  omega

end Range

variable {cfg} in
theorem Inv.rangeKept {s : State} (h : Inv cfg s) {c : ℕ} (hc : c ∈ s.publishqueue ∨
    s.lastClosedLedgerNum < c ∧ isCheckpoint cfg c = true) : RangeKept cfg s c := by
  obtain ⟨m, hm⟩ := h.kept
  rcases hc with hc | ⟨hlt, hcheck⟩
  · exact hm.range (h.queued.checkpoints c (h.queued.mem_queue.mp hc).1).1
      (hm.trimmed.imp_right fun ht => ht.2 c hc)
  · exact hm.range hcheck (hm.trimmed.imp_right fun ht => by omega)

/-! ## What subscribers have not read -/

/-- A row of the ledger `n`. -/
def HasRow (s : State) (n : ℕ) : Prop :=
  n ∈ s.ledgerheaders ∨ ∃ tx ∈ s.txhistory, tx.ledgerseq = n

/-- If some cursors are less than `2 ^ 31` and others are not, the rows above the former are kept for
other reasons: they are not far enough behind what is closed and queued, or the others have not
read them. -/
def UnreadKept (s : State) : Prop :=
  ∀ low ∈ s.pubsub, low.2.toNat < 2 ^ 31 → (∃ high ∈ s.pubsub, 2 ^ 31 ≤ high.2.toNat) →
    ∀ n, HasRow s n → low.2.toNat < n →
      (n + cfg.getCheckpointFrequency ≤ s.lastClosedLedgerNum →
        ∃ c ∈ s.publishqueue, c < n + cfg.getCheckpointFrequency) ∨
      ∃ high ∈ s.pubsub, 2 ^ 31 ≤ high.2.toNat ∧ high.2.toNat < n

section Cursors

variable {cfg} {s : State}

theorem toInt_le_toInt_iff {a b : BitVec 32} : a.toInt ≤ b.toInt ↔
    (2 ^ 31 ≤ a.toNat ∨ b.toNat < 2 ^ 31) ∧
      ((2 ^ 31 ≤ a.toNat ↔ 2 ^ 31 ≤ b.toNat) → a.toNat ≤ b.toNat) := by
  simp only [BitVec.toInt_eq_toNat_cond]
  have ha := a.isLt
  have hb := b.isLt
  split_ifs <;> omega

/-- The cursor that is the least if they are compared as signed numbers. -/
theorem rmin_spec (hsome : s.pubsub ≠ []) :
    ∃ row ∈ s.pubsub, rmin s = row.2.toNat ∧ ∀ row' ∈ s.pubsub, row.2.toInt ≤ row'.2.toInt := by
  unfold rmin
  cases hmin : (s.pubsub.map (·.2.toInt)).min? with
  | none =>
    rw [List.min?_eq_none_iff, List.map_eq_nil_iff] at hmin
    exact absurd hmin hsome
  | some m =>
    obtain ⟨hmem, hle⟩ := List.min?_eq_some_iff.mp hmin
    obtain ⟨row, hrow, rfl⟩ := List.mem_map.mp hmem
    refine ⟨row, hrow, congrArg BitVec.toNat BitVec.ofInt_toInt, fun row' hrow' => ?_⟩
    exact hle _ (List.mem_map.mpr ⟨row', hrow', rfl⟩)

/-- A cursor that is `2 ^ 31` or more is waited for, and if there is none, so are the others. -/
theorem rmin_le {row : String × BitVec 32} (hrow : row ∈ s.pubsub)
    (hlow : row.2.toNat < 2 ^ 31 → ∀ high ∈ s.pubsub, high.2.toNat < 2 ^ 31) :
    rmin s ≤ row.2.toNat := by
  obtain ⟨least, hmem, hrmin, hle⟩ := rmin_spec (List.ne_nil_of_mem hrow)
  have hcmp := toInt_le_toInt_iff.mp (hle row hrow)
  have hleast := fun h => hlow h least hmem
  rw [hrmin]
  omega

/-- If there is one, it is the least. -/
theorem exists_rmin {high : String × BitVec 32} (hhigh : high ∈ s.pubsub)
    (hbig : 2 ^ 31 ≤ high.2.toNat) :
    ∃ least ∈ s.pubsub, 2 ^ 31 ≤ least.2.toNat ∧ rmin s = least.2.toNat := by
  obtain ⟨least, hmem, hrmin, hle⟩ := rmin_spec (List.ne_nil_of_mem hhigh)
  have hcmp := toInt_le_toInt_iff.mp (hle high hhigh)
  exact ⟨least, hmem, by omega, hrmin⟩

theorem Kept.pos_of_hasRow {m n : ℕ} (h : Kept cfg m s) (hn : HasRow s n) : 1 ≤ n := by
  rcases hn with hn | ⟨tx, htx, rfl⟩
  · rw [h.headers] at hn
    exact (List.mem_range'_1.mp (List.mem_filter.mp hn).1).1
  · rw [h.txs] at htx
    exact (h.applied tx (List.mem_filter.mp htx).1).1

theorem process_keeps_iff :
    (∀ resid cursor, (resid, cursor) ∈ s.pubsub →
      (∀ n ∈ s.ledgerheaders, cursor.toNat < n → n ∈ (process cfg s).ledgerheaders) ∧
        ∀ tx ∈ s.txhistory, cursor.toNat < tx.ledgerseq → tx ∈ (process cfg s).txhistory) ↔
      ∀ row ∈ s.pubsub, ∀ n, HasRow s n → row.2.toNat < n → ¬ n ≤ trimTo cfg s := by
  constructor
  · intro h row hrow n hn hlt
    obtain ⟨hheaders, htxs⟩ := h row.1 row.2 hrow
    rcases hn with hn | ⟨tx, htx, rfl⟩
    · exact of_decide_eq_true (List.mem_filter.mp (hheaders n hn hlt)).2
    · exact of_decide_eq_true (List.mem_filter.mp (htxs tx htx hlt)).2
  · intro h resid cursor hcursor
    exact ⟨fun n hn hlt => List.mem_filter.mpr ⟨hn, decide_eq_true (h _ hcursor n (Or.inl hn) hlt)⟩,
      fun tx htx hlt => List.mem_filter.mpr
        ⟨htx, decide_eq_true (h _ hcursor _ (Or.inr ⟨tx, htx, rfl⟩) hlt)⟩⟩

/-- The rows that subscribers have not read are kept if and only if those above the cursors that are
less than `2 ^ 31` are kept for other reasons. -/
theorem unreadKept_iff (hq : Queued cfg s) (hpos : ∀ n, HasRow s n → 1 ≤ n) :
    (∀ row ∈ s.pubsub, ∀ n, HasRow s n → row.2.toNat < n → ¬ n ≤ trimTo cfg s) ↔
      UnreadKept cfg s := by
  have hkept : ∀ {n}, HasRow s n → (¬ n ≤ trimTo cfg s ↔
      (n + cfg.getCheckpointFrequency ≤ s.lastClosedLedgerNum →
        ∃ c ∈ s.publishqueue, c < n + cfg.getCheckpointFrequency) ∨ rmin s < n) := by
    intro n hn
    rw [le_trimTo_iff hq (hpos n hn), not_and_or, not_and, not_le]
    simp only [not_forall, not_le, exists_prop]
  constructor
  · intro h low hlow _ ⟨high, hhigh, hbig⟩ n hn hlt
    obtain ⟨least, hmem, hleast, hrmin⟩ := exists_rmin hhigh hbig
    exact ((hkept hn).mp (h low hlow n hn hlt)).imp_right fun h => ⟨least, hmem, hleast, hrmin ▸ h⟩
  · intro h row hrow n hn hlt
    by_cases hmixed : row.2.toNat < 2 ^ 31 ∧ ∃ high ∈ s.pubsub, 2 ^ 31 ≤ high.2.toNat
    · refine (hkept hn).mpr ((h row hrow hmixed.1 hmixed.2 n hn hlt).imp_right ?_)
      rintro ⟨high, hhigh, hbig, hread⟩
      exact (rmin_le hhigh (by omega)).trans_lt hread
    · refine (hkept hn).mpr (Or.inr ((rmin_le hrow fun hsmall high hhigh => ?_).trans_lt hlt))
      by_contra hbig
      exact hmixed ⟨hsmall, high, hhigh, by omega⟩

end Cursors

/-- **History that is not published is not lost.** In every run,

* the ranges of the queued checkpoints are one after the other, and have every ledger before the
  checkpoint that is not complete yet;
* the rows in the range of a checkpoint that is queued, or that a later close queues, are in the
  database, and the snapshot of a checkpoint that is queued is complete;
* a publication that runs is of a checkpoint that is queued; and
* `process` deletes no row above the cursor of a subscriber if and only if those above a cursor that
  is less than `2 ^ 31`, while others are not, are kept for other reasons. -/
theorem history_kept (events : List Event) :
    let s := run cfg events
    (s.queued.Pairwise (fun c c' => c < cfg.prevCheckpointLedger c') ∧
      (cfg.hasAnyWritableHistoryArchive = true → ∀ n, 1 ≤ n →
        n < cfg.prevCheckpointLedger (s.lastClosedLedgerNum + 1) →
          ∃ c ∈ s.queued, cfg.prevCheckpointLedger c ≤ n ∧ n ≤ c)) ∧
    (∀ c, c ∈ s.publishqueue ∨ s.lastClosedLedgerNum < c ∧ isCheckpoint cfg c = true →
      RangeKept cfg s c) ∧
    (∀ c ∈ s.publishqueue, writeHistoryBlocks cfg c s =
      (List.range' (max 1 (cfg.prevCheckpointLedger c))
          (c + 1 - max 1 (cfg.prevCheckpointLedger c)),
        s.applied.filter fun tx => cfg.prevCheckpointLedger c ≤ tx.ledgerseq ∧ tx.ledgerseq ≤ c,
        true)) ∧
    (∀ c ∈ s.works, c ∈ s.publishqueue) ∧
    ((∀ resid cursor, (resid, cursor) ∈ s.pubsub →
      (∀ n ∈ s.ledgerheaders, cursor.toNat < n → n ∈ (process cfg s).ledgerheaders) ∧
        ∀ tx ∈ s.txhistory, cursor.toNat < tx.ledgerseq → tx ∈ (process cfg s).txhistory) ↔
      UnreadKept cfg s) := by
  have h := run_inv cfg events
  generalize run cfg events = s at h
  obtain ⟨m, hm⟩ := h.kept
  have hq := h.queued
  refine ⟨⟨?_, fun hw n hn hlt => ?_⟩, fun c hc => h.rangeKept hc, fun c hc => ?_, h.active.queued,
    process_keeps_iff.trans (unreadKept_iff hq fun _ => hm.pos_of_hasRow)⟩
  · refine hq.sorted.imp_of_mem fun hc hc' hlt => ?_
    exact lt_prevCheckpointLedger (hq.checkpoints _ hc).1 (hq.checkpoints _ hc').1 hlt
  · obtain ⟨c, hcheck, hlow, hhigh⟩ := exists_isCheckpoint cfg n
    refine ⟨c, hq.complete hw c ?_ hcheck, hlow, hhigh⟩
    by_contra hclosed
    have hprev := prevCheckpointLedger_of_isCheckpoint hcheck
    rw [isCheckpoint_iff] at hcheck
    unfold Config.prevCheckpointLedger at hlt hprev hlow
    rcases freq_cases cfg with hf | hf <;> rw [hf] at hlt hprev hlow hcheck <;> omega
  · have hcheck := hq.checkpoints c (hq.mem_queue.mp hc).1
    exact hm.writeHistoryBlocks hcheck.1 hcheck.2 (hm.trimmed.imp_right fun ht => ht.2 c hc)

/-- A node without archives, and two subscribers. -/
def twoCursors : List Event :=
  [.setCursor "A" 10#32, .setCursor "B" 2147483653#32] ++ List.replicate 99 (.closeLedger 1)

/-- `process` deletes what one of them has not read. -/
theorem unread_rows_deleted :
    let s := run { hasAnyWritableHistoryArchive := false } twoCursors
    ("A", 10#32) ∈ s.pubsub ∧ 36 ∈ s.ledgerheaders ∧
      36 ∉ (process { hasAnyWritableHistoryArchive := false } s).ledgerheaders := by
  decide +kernel

/-! ## The order of publication -/

/-- A close does not queue a checkpoint while others wait and none is published: either a publication
runs, or nothing is queued. -/
def NoneWaiting (s : State) : Event → Prop
  | .closeLedger _ => isCheckpoint cfg (s.lastClosedLedgerNum + 1) = true →
    s.mPublishWork ≠ none ∨ s.publishqueue = []
  | _ => True

/-- What is started, and in which order. -/
structure InOrder (s : State) : Prop where
  works : ∀ c ∈ s.works, c ∈ s.started
  closed : ∀ c ∈ s.started, c ≤ s.lastClosedLedgerNum
  sorted : s.started.Pairwise (· ≤ ·)
  /-- what is queued is not before any of them -/
  queue : ∀ c ∈ s.started, ∀ c' ∈ s.publishqueue, c ≤ c'

section Order

variable {cfg} {s : State}

theorem InOrder.takeSnapshotAndPublish (h : InOrder s) {c : ℕ} (hc : c ∈ s.publishqueue)
    (hclosed : c ≤ s.lastClosedLedgerNum)
    (hmin : s.mPublishWork = none → ∀ c' ∈ s.publishqueue, c ≤ c') :
    InOrder (takeSnapshotAndPublish c s) := by
  unfold HistoryManager.takeSnapshotAndPublish
  split_ifs with hwork
  · exact h
  · have hmin := hmin (by simpa using hwork)
    refine ⟨fun c₁ hc₁ => ?_, fun c₁ hc₁ => ?_, ?_, fun c₁ hc₁ c' hc' => ?_⟩
    · rcases List.mem_cons.mp hc₁ with rfl | hc₁
      · exact List.mem_append_right _ (List.mem_singleton.mpr rfl)
      · exact List.mem_append_left _ (h.works c₁ hc₁)
    · rcases List.mem_append.mp hc₁ with hc₁ | hc₁
      · exact h.closed c₁ hc₁
      · rw [List.mem_singleton.mp hc₁]
        exact hclosed
    · refine List.pairwise_append.mpr ⟨h.sorted, List.pairwise_singleton _ _, fun c₁ hc₁ c₂ hc₂ => ?_⟩
      rw [List.mem_singleton.mp hc₂]
      exact h.queue c₁ hc₁ c hc
    · rcases List.mem_append.mp hc₁ with hc₁ | hc₁
      · exact h.queue c₁ hc₁ c' hc'
      · rw [List.mem_singleton.mp hc₁]
        exact hmin c' hc'

/-- The oldest that is queued is next. -/
theorem InOrder.publishQueuedHistory (h : InOrder s)
    (hclosed : ∀ c ∈ s.publishqueue, c ≤ s.lastClosedLedgerNum) :
    InOrder (publishQueuedHistory s) := by
  unfold HistoryManager.publishQueuedHistory
  split
  · rename_i c hmin
    obtain ⟨hc, hle⟩ := List.min?_eq_some_iff.mp hmin
    exact h.takeSnapshotAndPublish hc (hclosed c hc) fun _ => hle
  · exact h

theorem InOrder.maybeQueueHistoryCheckpoint (cfg : Config) (h : InOrder s)
    (hlt : ∀ c ∈ s.started, c ≤ s.lastClosedLedgerNum)
    (hnone : isCheckpoint cfg s.lastClosedLedgerNum = true →
      s.mPublishWork ≠ none ∨ s.publishqueue = []) :
    InOrder (maybeQueueHistoryCheckpoint cfg s) := by
  unfold HistoryManager.maybeQueueHistoryCheckpoint
  split_ifs with hcheck
  · exact h
  · exact h
  · have hq : InOrder (withQueued s) := by
      refine ⟨h.works, h.closed, h.sorted, fun c hc c' hc' => ?_⟩
      rcases List.mem_append.mp hc' with hc' | hc'
      · exact h.queue c hc c' hc'
      · rw [List.mem_singleton.mp hc']
        exact hlt c hc
    refine hq.takeSnapshotAndPublish (List.mem_append_right _ (List.mem_singleton.mpr rfl)) le_rfl
      fun hwork c' hc' => ?_
    -- no publication runs, so nothing else is queued
    have hnil := (hnone (by simpa using hcheck)).resolve_left fun hne => hne hwork
    rcases List.mem_append.mp hc' with hc' | hc'
    · rw [hnil] at hc'
      exact absurd hc' List.not_mem_nil
    · exact (List.mem_singleton.mp hc').ge

theorem Queued.queue_closed (h : Queued cfg s) : ∀ c ∈ s.publishqueue, c ≤ s.lastClosedLedgerNum :=
  fun c hc => (h.checkpoints c (h.mem_queue.mp hc).1).2

theorem step_inOrder (hinv : Inv cfg s) (h : InOrder s) {e : Event} (he : NoneWaiting cfg s e) :
    InOrder (step cfg s e) := by
  have hclosed := hinv.queued.queue_closed
  cases e with
  | closeLedger numTxs =>
    have hledger : InOrder (withLedger numTxs s) :=
      ⟨h.works, fun c hc => Nat.le_succ_of_le (h.closed c hc), h.sorted, h.queue⟩
    have hcheckpoint := hledger.maybeQueueHistoryCheckpoint cfg hledger.closed he
    refine hcheckpoint.publishQueuedHistory fun c hc => ?_
    have hall := (hinv.queued.closeLedger numTxs).queue_closed
    rw [closeLedger_eq, publishQueuedHistory_publishqueue,
      publishQueuedHistory_lastClosedLedgerNum] at hall
    exact hall c hc
  | historyPublished c success =>
    simp only [step]
    split_ifs with hc
    · have hworks : (historyPublished c success s).works = [] := by
        unfold historyPublished
        cases success <;> simp [(hinv.active.mem_works hc).2]
      refine ⟨fun c₁ hc₁ => ?_, ?_, ?_, fun c₁ hc₁ c' hc' => ?_⟩
      · rw [hworks] at hc₁
        exact absurd hc₁ List.not_mem_nil
      · cases success <;> exact h.closed
      · cases success <;> exact h.sorted
      · cases success with
        | false => exact h.queue c₁ hc₁ c' hc'
        | true => exact h.queue c₁ hc₁ c' (List.mem_filter.mp hc').1
    · exact h
  | callback =>
    simp only [step]
    split_ifs
    · have hposted : InOrder { s with posted := s.posted - 1 } :=
        ⟨h.works, h.closed, h.sorted, h.queue⟩
      exact hposted.publishQueuedHistory hclosed
    · exact h
  | setCursor resid cursor =>
    simp only [step, setCursorForResource]
    split_ifs
    · exact h
    · split <;> exact ⟨h.works, h.closed, h.sorted, h.queue⟩
  | deleteCursor resid =>
    simp only [step, deleteCursor]
    split_ifs
    · exact h
    · exact ⟨h.works, h.closed, h.sorted, h.queue⟩
  | process => exact ⟨h.works, h.closed, h.sorted, h.queue⟩
  | restart =>
    have hstopped : InOrder { s with mPublishWork := none, works := [], posted := 0 } :=
      ⟨fun c hc => absurd hc List.not_mem_nil, h.closed, h.sorted, h.queue⟩
    exact hstopped.publishQueuedHistory hclosed

theorem run_inOrder {events : List Event}
    (h : ∀ pre e post, events = pre ++ e :: post → NoneWaiting cfg (run cfg pre) e) :
    InOrder (run cfg events) := by
  induction events using List.reverseRecOn with
  | nil =>
    exact ⟨fun c hc => absurd hc List.not_mem_nil, fun c hc => absurd hc List.not_mem_nil,
      List.Pairwise.nil, fun c hc => absurd hc List.not_mem_nil⟩
  | append_singleton events e ih =>
    rw [run_append]
    refine step_inOrder (run_inv cfg events) (ih fun pre e' post heq => ?_) (h events e [] rfl)
    exact h pre e' (post ++ [e]) (by rw [heq]; simp)

/-- What leaves the queue was published. -/
theorem eq_of_left_publishqueue (h : Inv cfg s) {e : Event} {c : ℕ} (hc : c ∈ s.publishqueue)
    (hleft : c ∉ (step cfg s e).publishqueue) : e = .historyPublished c true ∧ s.works = [c] := by
  cases e with
  | closeLedger numTxs =>
    refine absurd ?_ hleft
    rw [step, closeLedger_eq, publishQueuedHistory_publishqueue]
    unfold maybeQueueHistoryCheckpoint
    split_ifs
    · exact hc
    · exact hc
    · rw [queueCurrentHistory_rows]
      exact List.mem_append_left _ hc
  | historyPublished c' success =>
    simp only [step] at hleft
    split_ifs at hleft with hmem
    · cases success with
      | false => exact absurd hc hleft
      | true =>
        have heq : c = c' := by
          by_contra hne
          exact hleft (List.mem_filter.mpr ⟨hc, decide_eq_true hne⟩)
        subst heq
        exact ⟨rfl, (h.active.mem_works hmem).2⟩
    · exact absurd hc hleft
  | callback =>
    simp only [step] at hleft
    split_ifs at hleft
    · rw [publishQueuedHistory_publishqueue] at hleft
      exact absurd hc hleft
    · exact absurd hc hleft
  | setCursor resid cursor =>
    simp only [step, setCursorForResource] at hleft
    split_ifs at hleft
    · exact absurd hc hleft
    · split at hleft <;> exact absurd hc hleft
  | deleteCursor resid =>
    simp only [step, deleteCursor] at hleft
    split_ifs at hleft <;> exact absurd hc hleft
  | process => exact absurd hc hleft
  | restart =>
    rw [step, publishQueuedHistory_publishqueue] at hleft
    exact absurd hc hleft

end Order

/-- **Checkpoints are published in order** in every run in which, whenever a ledger that is closed is
a checkpoint, a publication runs or nothing is queued:

* at most one publication runs;
* the publications that are started are in order, and none is started before those of all older
  checkpoints have succeeded; and
* a checkpoint leaves the queue only when its own publication succeeds. -/
theorem published_in_order (events : List Event)
    (h : ∀ pre e post, events = pre ++ e :: post → NoneWaiting cfg (run cfg pre) e) :
    let s := run cfg events
    s.works.length ≤ 1 ∧ s.started.Pairwise (· ≤ ·) ∧
      (∀ c ∈ s.started, ∀ c' ∈ s.queued, c' < c → c' ∈ s.published) ∧
        ∀ e, ∀ c ∈ s.publishqueue, c ∉ (step cfg s e).publishqueue →
          e = .historyPublished c true ∧ s.works = [c] := by
  have hinv := run_inv cfg events
  have horder := run_inOrder h
  generalize run cfg events = s at hinv horder
  refine ⟨?_, horder.sorted, fun c hc c' hc' hlt => ?_, fun e c hc hleft => ?_⟩
  · rw [hinv.active.works]
    cases s.mPublishWork <;> simp
  · by_contra hnot
    have hle := horder.queue c hc c' (hinv.queued.mem_queue.mpr ⟨hc', hnot⟩)
    omega
  · exact eq_of_left_publishqueue hinv hc hleft

/-- Three checkpoints with a frequency of 8. The publication of the first ends just before the third
is closed. -/
def threeCheckpoints : List Event :=
  List.replicate 21 (.closeLedger 1) ++
    [.historyPublished 7 true, .closeLedger 1, .historyPublished 23 true, .callback]

def accelerated : Config := { ARTIFICIALLY_ACCELERATE_TIME_FOR_TESTING := true }

/-- The third is published before the second. -/
theorem newer_checkpoint_first :
    (run accelerated threeCheckpoints).started = [7, 23, 15] ∧
      ¬ (run accelerated threeCheckpoints).started.Pairwise (· ≤ ·) := by
  decide +kernel

/-- The publication of the first fails once, and the callback runs before the third is closed. -/
def threeInOrder : List Event :=
  List.replicate 14 (.closeLedger 1) ++ [.historyPublished 7 false, .callback] ++
    List.replicate 7 (.closeLedger 1) ++ [.historyPublished 7 true, .callback, .closeLedger 1] ++
      [.historyPublished 15 true, .callback]

instance (s : State) : (e : Event) → Decidable (NoneWaiting cfg s e)
  | .closeLedger _ => inferInstanceAs (Decidable (_ → _))
  | .historyPublished .. | .callback | .setCursor .. | .deleteCursor _ | .process | .restart =>
    .isTrue trivial

/-- Tests the condition at every event. -/
def noneWaiting (s : State) : List Event → Bool
  | [] => true
  | e :: events => decide (NoneWaiting cfg s e) && noneWaiting (step cfg s e) events

theorem noneWaiting_spec {s : State} {events : List Event} (h : noneWaiting cfg s events = true)
    {pre post : List Event} {e : Event} (heq : events = pre ++ e :: post) :
    NoneWaiting cfg (pre.foldl (step cfg) s) e := by
  induction pre generalizing s events with
  | nil =>
    subst heq
    rw [List.nil_append, noneWaiting, Bool.and_eq_true, decide_eq_true_iff] at h
    exact h.1
  | cons e' pre ih =>
    subst heq
    rw [List.cons_append, noneWaiting, Bool.and_eq_true] at h
    exact ih h.2 rfl

theorem published_in_order_threeInOrder :
    (∀ pre e post, threeInOrder = pre ++ e :: post → NoneWaiting accelerated (run accelerated pre) e) ∧
      (run accelerated threeInOrder).started = [7, 7, 15, 23] ∧
        (run accelerated threeInOrder).started.Pairwise (· ≤ ·) := by
  have hall : noneWaiting accelerated {} threeInOrder = true := by decide +kernel
  have hstarted : (run accelerated threeInOrder).started = [7, 7, 15, 23] := by decide +kernel
  have h : ∀ pre e post, threeInOrder = pre ++ e :: post →
      NoneWaiting accelerated (run accelerated pre) e := fun _ _ _ => noneWaiting_spec accelerated hall
  exact ⟨h, hstarted, (published_in_order accelerated threeInOrder h).2.1⟩

end SmartCore.History.HistoryManager
