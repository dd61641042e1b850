import Mathlib.Logic.Encodable.Basic
import Mathlib.Logic.Equiv.List
import SmartCore.Buckets.BucketList
import SmartCore.History.VerifyLedgerChain

/-!
# Minimal catchup

`CatchupMinimalWork` fetches the state of an archive, verifies a chain of ledger headers, fetches the
buckets the state names and puts them into the node's bucket list. It then reports the first header
of the chain as the last closed ledger.

A bucket file is checked against the hash it is asked for under, and the headers against the
network. The state itself is checked against nothing: the hash of the bucket list it describes
(`getBucketListHash`) is computed nowhere, so that an archive can serve the headers of the network
with the buckets of its own choice (`other_buckets_installed`).

Main result: `installs_iff`. The bucket list has the hash that the reported header gives if and only
if the archive's state has.

A hash stands for the hexadecimal string the source has in its place. A string that is none ends the
work by an exception.
-/

namespace SmartCore.History

open SCP (Uint32 Hash)
open Buckets (kNumLevels)

/-! ## Buckets -/

/-- A bucket: its hash, and the bytes of its file. -/
structure Bucket where
  mHash : Hash := 0
  contents : List UInt8 := []
deriving DecidableEq, Repr

/-- The buckets that go by a hash. -/
abbrev BucketOf (h : Hash) := { b : Bucket // b.mHash = h }

/-- A merge: what it reads or gives, or the hashes of these. -/
inductive FutureBucket where
  | FB_CLEAR
  | FB_HASH_OUTPUT (output : Hash)
  | FB_HASH_INPUTS (curr snap : Hash) (shadow : List Hash)
  | FB_LIVE_OUTPUT (output : Bucket)
  | FB_LIVE_INPUTS (curr snap : Bucket) (shadow : List Bucket)
deriving DecidableEq, Repr

def FutureBucket.isLive : FutureBucket → Bool
  | FB_LIVE_OUTPUT _ => true
  | FB_LIVE_INPUTS .. => true
  | _ => false

/-- `getOutputHash`, if `hasOutputHash`. -/
def FutureBucket.outputHash? : FutureBucket → Option Hash
  | FB_HASH_OUTPUT output => some output
  | FB_LIVE_OUTPUT output => some output.mHash
  | _ => none

structure BucketLevel where
  mCurr : Bucket := {}
  mSnap : Bucket := {}
  mNextCurr : FutureBucket := .FB_CLEAR

namespace BucketLevel

/-- Setting `mCurr` clears `mNextCurr`. -/
def setCurr (level : BucketLevel) (b : Bucket) : BucketLevel :=
  { level with mNextCurr := .FB_CLEAR, mCurr := b }

def setSnap (level : BucketLevel) (b : Bucket) : BucketLevel := { level with mSnap := b }

def setNext (level : BucketLevel) (fb : FutureBucket) : BucketLevel := { level with mNextCurr := fb }

end BucketLevel

/-- The part of a node that a minimal catchup changes: the files of the bucket manager, the levels of
the bucket list below `kNumLevels`, and the database. -/
structure Node (Db : Type) where
  bucketDir : Hash → Option (List UInt8)
  mLevels : ℕ → BucketLevel
  db : Db

namespace Node

variable {Db : Type} (node : Node Db)

def getBucketByHash (h : Hash) : Option (BucketOf h) :=
  if hz : h = 0 then some ⟨{}, hz.symm⟩ else (node.bucketDir h).map fun c => ⟨⟨h, c⟩, rfl⟩

/-- An existing bucket makes the file redundant. -/
def adoptFileAsBucket (contents : List UInt8) (h : Hash) : BucketOf h × Node Db :=
  match node.getBucketByHash h with
  | some b => (b, node)
  | none =>
    (⟨⟨h, contents⟩, rfl⟩,
      { node with bucketDir := Function.update node.bucketDir h (some contents) })

def setLevel (i : ℕ) (level : BucketLevel) : Node Db :=
  { node with mLevels := Function.update node.mLevels i level }

end Node

/-! ## Archives -/

structure HistoryStateBucket where
  curr : Hash
  next : FutureBucket := .FB_CLEAR
  snap : Hash
deriving DecidableEq, Repr

/-- What an archive says about a bucket list. Nothing bounds the number of its levels. -/
structure HistoryArchiveState where
  version : ℕ := 1
  currentBuckets : List HistoryStateBucket
deriving DecidableEq, Repr

def HISTORY_ARCHIVE_STATE_VERSION : ℕ := 1

namespace HistoryArchiveState

/-- Does `load` accept the file? A merge is only read by its hashes. -/
def loads (has : HistoryArchiveState) : Bool :=
  has.currentBuckets.all (fun level => !level.next.isLive) &&
    decide (has.version = HISTORY_ARCHIVE_STATE_VERSION)

/-- `ret` gets what is not inhibited, and nothing twice. -/
def addDiffering (acc : List Hash × List Hash) (j : Hash) : List Hash × List Hash :=
  if j ∈ acc.1 then acc else (j :: acc.1, acc.2 ++ [j])

/-- The buckets that are not those of `other`, or `none` if there are too few levels to read. -/
def differingBuckets (has other : HistoryArchiveState) : Option (List Hash) :=
  if has.currentBuckets.length < kNumLevels then none
  else
    let inhibit := 0 :: other.currentBuckets.flatMap fun b =>
      b.curr :: b.next.outputHash?.toList ++ [b.snap]
    let wanted := (has.currentBuckets.take kNumLevels).reverse.flatMap fun level =>
      [level.snap, level.next.outputHash?.getD level.snap, level.curr]
    some (wanted.foldl addDiffering (inhibit, [])).2

end HistoryArchiveState

/-- An archive: its states and its ledger headers by checkpoints, and its buckets by their hashes.
All of it is arbitrary. -/
structure HistoryArchive where
  states : Uint32 → Option HistoryArchiveState
  ledgers : Uint32 → List LedgerHeaderHistoryEntry
  buckets : Hash → Option (List UInt8)

/-! ## The work -/

/-- Why a minimal catchup does not succeed. -/
inductive CatchupFailure where
  | archiveState
  | ledgerChain
  | bucketLevels
  | bucketMissing
  | bucketHash
  | earlierThanLCL
  | assertBucket
  | applicator
deriving DecidableEq, Repr

/-- What a minimal catchup runs on. The hashes are those of a header, of a sequence of hashes, and of
a file; `applyBucket` is what a `BucketApplicator` does, or `none` if the file cannot be read. -/
structure CatchupMinimalWork (Db : Type) where
  sha256 : LedgerHeader → Hash
  sha256Hashes : List Hash → Hash
  sha256File : List UInt8 → Hash
  applyBucket : Bucket → Db → Option Db
  accelerated : Bool
  CATCHUP_RECENT : Uint32
  mInitLedger : Uint32
  mManualCatchup : Bool
  mLocalState : HistoryArchiveState
  archive : HistoryArchive

namespace CatchupMinimalWork

variable {Db : Type} (w : CatchupMinimalWork Db)

/-- `BucketLevel::getHash`. -/
def levelHash (level : BucketLevel) : Hash := w.sha256Hashes [level.mCurr.mHash, level.mSnap.mHash]

/-- `BucketList::getHash`. -/
def getHash (node : Node Db) : Hash :=
  w.sha256Hashes ((List.range kNumLevels).map fun i => w.levelHash (node.mLevels i))

/-- `HistoryArchiveState::getBucketListHash`, which nothing calls. -/
def getBucketListHash (has : HistoryArchiveState) : Hash :=
  w.sha256Hashes (has.currentBuckets.map fun level => w.sha256Hashes [level.curr, level.snap])

def nextLedger : Uint32 :=
  if w.mManualCatchup then w.mInitLedger else nextCheckpointLedger w.accelerated w.mInitLedger

def lastCheckpointSeq : Uint32 := w.nextLedger - 1

def firstLedger : Uint32 :=
  if w.CATCHUP_RECENT < w.mInitLedger then w.mInitLedger - w.CATCHUP_RECENT else 0

def firstCheckpointSeq : Uint32 := nextCheckpointLedger w.accelerated w.firstLedger - 1

/-- Phases 2 and 3. -/
def verifyLedgersWork (lm : LedgerManager) : ChainWork where
  sha256 := w.sha256
  accelerated := w.accelerated
  files := w.archive.ledgers
  mFirstLedger := w.firstLedger
  mLastSeq := w.lastCheckpointSeq
  mManualCatchup := w.mManualCatchup
  lastClosed := lm.mLastClosedLedger
  ledgerManager := lm

/-- The buckets that were downloaded. -/
abbrev Downloaded := (h : Hash) → Option (BucketOf h)

/-- Phase 4: each bucket is downloaded, and its hash verified. -/
def downloadBuckets : List Hash → Downloaded → Node Db →
    Except CatchupFailure (Downloaded × Node Db)
  | [], mBuckets, node => pure (mBuckets, node)
  | hash :: rest, mBuckets, node =>
    match w.archive.buckets hash with
    | none => throw .bucketMissing
    | some contents =>
      if w.sha256File contents = hash then
        let (b, node) := node.adoptFileAsBucket contents hash
        downloadBuckets rest (Function.update mBuckets hash (some b)) node
      else throw .bucketHash

/-! ### Applying the buckets -/

/-- `ApplyBucketsWork::getBucket`. -/
def getBucket (mBuckets : Downloaded) (node : Node Db) (h : Hash) :
    Except CatchupFailure (BucketOf h) :=
  if hz : h = 0 then pure ⟨{}, hz.symm⟩
  else
    match (mBuckets h).orElse fun _ => node.getBucketByHash h with
    | some b => pure b
    | none => throw .assertBucket

/-- The applicator runs to its end. -/
def applicator (b : Bucket) (node : Node Db) : Except CatchupFailure (Node Db) :=
  match w.applyBucket b node.db with
  | some db => pure { node with db := db }
  | none => throw .applicator

/-- Apply the bucket `h` and let `set` put it into the level, if it is to be applied. -/
def replaceBucket (mBuckets : Downloaded) (apply : Bool) (h : Hash)
    (set : BucketLevel → Bucket → BucketLevel) (level : BucketLevel) (node : Node Db) :
    Except CatchupFailure (BucketLevel × Node Db) :=
  if apply then do
    let b ← getBucket mBuckets node h
    let node ← w.applicator b node
    pure (set level b, node)
  else pure (level, node)

/-- One level, where `mApplying` says whether a bucket was applied before. -/
def applyLevel (mApplyState : HistoryArchiveState) (mBuckets : Downloaded) (mLevel : ℕ)
    (mApplying : Bool) (node : Node Db) : Except CatchupFailure (Bool × Node Db) :=
  match mApplyState.currentBuckets[mLevel]? with
  | none => throw .bucketLevels
  | some i => do
    let level := node.mLevels mLevel
    let applySnap := mApplying || decide (i.snap ≠ level.mSnap.mHash)
    let applyCurr := applySnap || decide (i.curr ≠ level.mCurr.mHash)
    let (level, node) ← w.replaceBucket mBuckets applySnap i.snap .setSnap level node
    let (level, node) ← w.replaceBucket mBuckets applyCurr i.curr .setCurr level node
    pure (applyCurr, node.setLevel mLevel (level.setNext i.next))

/-- The levels below `n`, from the oldest on. -/
def applyLevels (mApplyState : HistoryArchiveState) (mBuckets : Downloaded) :
    ℕ → Bool → Node Db → Except CatchupFailure (Node Db)
  | 0, _, node => pure node
  | n + 1, mApplying, node => do
    let (mApplying, node) ← w.applyLevel mApplyState mBuckets n mApplying node
    applyLevels mApplyState mBuckets n mApplying node

def fetch (node : Node Db) (h : Hash) : Except CatchupFailure Bucket :=
  match node.getBucketByHash h with
  | some b => pure b
  | none => throw .assertBucket

def makeLive (node : Node Db) : FutureBucket → Except CatchupFailure FutureBucket
  | .FB_HASH_OUTPUT output => do
    let output ← fetch node output
    pure (.FB_LIVE_OUTPUT output)
  | .FB_HASH_INPUTS curr snap shadow => do
    let curr ← fetch node curr
    let snap ← fetch node snap
    let shadow ← shadow.mapM (fetch node)
    pure (.FB_LIVE_INPUTS curr snap shadow)
  | fb => pure fb

/-- The merges of the levels below `n`; their order does not matter, since each reads only the bucket
manager. -/
def restartMerges : ℕ → Node Db → Except CatchupFailure (Node Db)
  | 0, node => pure node
  | n + 1, node => do
    let next ← makeLive node (node.mLevels n).mNextCurr
    restartMerges n (node.setLevel n ((node.mLevels n).setNext next))

/-- `ApplyBucketsWork`. -/
def applyBuckets (mApplyState : HistoryArchiveState) (mBuckets : Downloaded)
    (firstVerified : LedgerHeaderHistoryEntry) (lcl : LedgerHeaderHistoryEntry) (node : Node Db) :
    Except CatchupFailure (Node Db) :=
  if firstVerified.header.ledgerSeq < lcl.header.ledgerSeq then throw .earlierThanLCL
  else do
    let node ← w.applyLevels mApplyState mBuckets kNumLevels false node
    restartMerges kNumLevels node

/-! ### The phases -/

/-- `GetHistoryArchiveStateWork`. -/
def getHistoryArchiveState : Except CatchupFailure HistoryArchiveState :=
  match w.archive.states w.firstCheckpointSeq with
  | none => throw .archiveState
  | some has => if has.loads then pure has else throw .archiveState

/-- The chain is verified with at most `n` steps, after attempts that have left `firstVerified` and
`lastVerified`. -/
def verifyLedgers (lm : LedgerManager) (n : ℕ)
    (firstVerified lastVerified : LedgerHeaderHistoryEntry) : Except CatchupFailure ChainState :=
  let chain := w.verifyLedgersWork lm
  match chain.attempt n (chain.onReset firstVerified lastVerified) with
  | some (.WORK_SUCCESS, t) => pure t
  | _ => throw .ledgerChain

/-- A whole catchup on a node in any state. A result is `WORK_SUCCESS`, with the node as it is then
and the ledger that is reported to the ledger manager as the last closed one. -/
def run (lm : LedgerManager) (n : ℕ) (firstVerified lastVerified : LedgerHeaderHistoryEntry)
    (node : Node Db) : Except CatchupFailure (Node Db × LedgerHeaderHistoryEntry) := do
  let mRemoteState ← w.getHistoryArchiveState
  let chain ← w.verifyLedgers lm n firstVerified lastVerified
  match mRemoteState.differingBuckets w.mLocalState with
  | none => throw .bucketLevels
  | some buckets => do
    let (mBuckets, node) ← w.downloadBuckets buckets (fun _ => none) node
    let node ← w.applyBuckets mRemoteState mBuckets chain.mFirstVerified lm.mLastClosedLedger node
    pure (node, chain.mFirstVerified)

/-- What a minimal catchup is for: the node's bucket list is the one of the reported header, under
both of the hashes that are meant to agree. -/
structure Installs (has : HistoryArchiveState) (node : Node Db)
    (reported : LedgerHeaderHistoryEntry) : Prop where
  verified : w.getHash node = reported.header.bucketListHash
  agrees : w.getHash node = w.getBucketListHash has

/-! ## What is applied -/

theorem bind_eq_ok {α β : Type} {x : Except CatchupFailure α} {f : α → Except CatchupFailure β}
    {b : β} : (x >>= f) = .ok b ↔ ∃ a, x = .ok a ∧ f a = .ok b := by
  cases x with
  | error e => simp [bind, Except.bind]
  | ok a => simp [bind, Except.bind]

variable {w}

theorem applicator_mLevels {b : Bucket} {node node' : Node Db}
    (h : w.applicator b node = .ok node') : node'.mLevels = node.mLevels := by
  unfold applicator at h
  split at h
  · cases h
    rfl
  · cases h

theorem replaceBucket_ok {mBuckets : Downloaded} {apply : Bool} {h : Hash}
    {set : BucketLevel → Bucket → BucketLevel} {level level' : BucketLevel} {node node' : Node Db}
    (hok : w.replaceBucket mBuckets apply h set level node = .ok (level', node')) :
    node'.mLevels = node.mLevels ∧
      ((apply = true ∧ ∃ b : BucketOf h, level' = set level b) ∨
        (apply = false ∧ level' = level)) := by
  unfold replaceBucket at hok
  cases apply with
  | true =>
    simp only [if_true, bind_eq_ok] at hok
    obtain ⟨b, -, node₁, hb, hok⟩ := hok
    cases hok
    exact ⟨applicator_mLevels hb, Or.inl ⟨rfl, b, rfl⟩⟩
  | false =>
    cases hok
    exact ⟨rfl, Or.inr ⟨rfl, rfl⟩⟩

/-- Does the level hold the buckets the state names? -/
def Holds (i : HistoryStateBucket) (level : BucketLevel) : Prop :=
  level.mCurr.mHash = i.curr ∧ level.mSnap.mHash = i.snap

/-- A bucket that is not applied is there already. -/
theorem applyLevel_ok {has : HistoryArchiveState} {mBuckets : Downloaded} {n : ℕ}
    {mApplying mApplying' : Bool} {node node' : Node Db}
    (h : w.applyLevel has mBuckets n mApplying node = .ok (mApplying', node')) :
    ∃ i, has.currentBuckets[n]? = some i ∧ Holds i (node'.mLevels n) ∧
      ∀ m ≠ n, node'.mLevels m = node.mLevels m := by
  unfold applyLevel at h
  split at h
  · cases h
  rename_i i hi
  refine ⟨i, hi, ?_⟩
  simp only [bind_eq_ok] at h
  obtain ⟨⟨level₁, node₁⟩, hsnap, ⟨level₂, node₂⟩, hcurr, h⟩ := h
  cases h
  obtain ⟨hnode₁, hsnap⟩ := replaceBucket_ok hsnap
  obtain ⟨hnode₂, hcurr⟩ := replaceBucket_ok hcurr
  have hsnap₁ : level₁.mSnap.mHash = i.snap := by
    rcases hsnap with ⟨-, b, rfl⟩ | ⟨hif, rfl⟩
    · exact b.2
    · simp only [Bool.or_eq_false_iff, decide_eq_false_iff_not, not_not] at hif
      exact hif.2.symm
  have hcurr₁ : level₁.mCurr = (node.mLevels n).mCurr := by
    rcases hsnap with ⟨-, b, rfl⟩ | ⟨-, rfl⟩ <;> rfl
  refine ⟨?_, fun m hm => ?_⟩
  · simp only [Holds, Node.setLevel, Function.update_self, BucketLevel.setNext]
    rcases hcurr with ⟨-, b, rfl⟩ | ⟨hif, rfl⟩
    · exact ⟨b.2, hsnap₁⟩
    · simp only [Bool.or_eq_false_iff, decide_eq_false_iff_not, not_not] at hif
      exact ⟨by rw [hcurr₁, hif.2], hsnap₁⟩
  · simp only [Node.setLevel, Function.update_of_ne hm]
    rw [hnode₂, hnode₁]

theorem applyLevels_ok {has : HistoryArchiveState} {mBuckets : Downloaded} {n : ℕ}
    {mApplying : Bool} {node node' : Node Db}
    (h : w.applyLevels has mBuckets n mApplying node = .ok node') :
    (∀ m < n, ∃ i, has.currentBuckets[m]? = some i ∧ Holds i (node'.mLevels m)) ∧
      ∀ m, n ≤ m → node'.mLevels m = node.mLevels m := by
  induction n generalizing mApplying node with
  | zero =>
    cases h
    exact ⟨fun m hm => absurd hm (Nat.not_lt_zero m), fun m _ => rfl⟩
  | succ n ih =>
    simp only [applyLevels, bind_eq_ok] at h
    obtain ⟨⟨mApplying₁, node₁⟩, hlevel, hrest⟩ := h
    obtain ⟨i, hi, hholds, hother⟩ := applyLevel_ok hlevel
    obtain ⟨hbelow, habove⟩ := ih hrest
    refine ⟨fun m hm => ?_, fun m hm => ?_⟩
    · rcases Nat.lt_succ_iff_lt_or_eq.mp hm with hlt | rfl
      · exact hbelow m hlt
      · refine ⟨i, hi, ?_⟩
        rw [habove m le_rfl]
        exact hholds
    · rw [habove m (by omega), hother m (by omega)]

/-- Restarting a merge changes no bucket. -/
theorem restartMerges_ok {n : ℕ} {node node' : Node Db} (h : restartMerges n node = .ok node')
    (i : HistoryStateBucket) (m : ℕ) : Holds i (node'.mLevels m) ↔ Holds i (node.mLevels m) := by
  induction n generalizing node with
  | zero =>
    cases h
    rfl
  | succ n ih =>
    simp only [restartMerges, bind_eq_ok] at h
    obtain ⟨next, -, hrest⟩ := h
    rw [ih hrest]
    by_cases hm : m = n
    · subst hm
      simp [Holds, Node.setLevel, BucketLevel.setNext]
    · simp [Node.setLevel, Function.update_of_ne hm]

/-- The levels of the node after the buckets were applied. -/
theorem applyBuckets_ok {has : HistoryArchiveState} {mBuckets : Downloaded}
    {firstVerified lcl : LedgerHeaderHistoryEntry} {node node' : Node Db}
    (h : w.applyBuckets has mBuckets firstVerified lcl node = .ok node') :
    ∀ m < kNumLevels, ∃ i, has.currentBuckets[m]? = some i ∧ Holds i (node'.mLevels m) := by
  unfold applyBuckets at h
  split_ifs at h
  simp only [bind_eq_ok] at h
  obtain ⟨node₁, happly, hrestart⟩ := h
  intro m hm
  obtain ⟨i, hi, hholds⟩ := (applyLevels_ok happly).1 m hm
  exact ⟨i, hi, (restartMerges_ok hrestart i m).mpr hholds⟩

/-- The two definitions of the hash agree on the levels a bucket list has. -/
theorem getHash_eq {has : HistoryArchiveState} {node : Node Db}
    (h : ∀ m < kNumLevels, ∃ i, has.currentBuckets[m]? = some i ∧ Holds i (node.mLevels m)) :
    kNumLevels ≤ has.currentBuckets.length ∧
      w.getHash node =
        w.getBucketListHash { has with currentBuckets := has.currentBuckets.take kNumLevels } := by
  have hlen : kNumLevels ≤ has.currentBuckets.length := by
    obtain ⟨i, hi, -⟩ := h (kNumLevels - 1) (by decide)
    have hlt := (List.getElem?_eq_some_iff.mp hi).1
    have hlast : kNumLevels - 1 + 1 = kNumLevels := by decide
    omega
  refine ⟨hlen, congrArg w.sha256Hashes (List.ext_getElem? fun m => ?_)⟩
  by_cases hm : m < kNumLevels
  · obtain ⟨i, hi, hcurr, hsnap⟩ := h m hm
    simp [hm, hi, levelHash, hcurr, hsnap]
  · have hle : kNumLevels ≤ m := not_lt.mp hm
    rw [List.getElem?_eq_none (by simpa using hle), List.getElem?_eq_none (by simp [hle])]

/-! ## What is reported -/

theorem verifyLedgers_ok {lm : LedgerManager} {n : ℕ}
    {firstVerified lastVerified : LedgerHeaderHistoryEntry} {t : ChainState}
    (h : w.verifyLedgers lm n firstVerified lastVerified = .ok t) :
    (w.archive.ledgers w.firstCheckpointSeq).getLast? = some t.mFirstVerified := by
  unfold verifyLedgers at h
  simp only at h
  split at h
  · rename_i t' ht'
    cases h
    obtain ⟨l, hl⟩ := ChainWork.attempt_verified ChainWork.aligned_mFirstSeq ht'
    exact hl.file rfl
  · cases h

/-- The header that is reported, and what is in the bucket list. -/
theorem run_ok {lm : LedgerManager} {n : ℕ} {firstVerified lastVerified : LedgerHeaderHistoryEntry}
    {node node' : Node Db} {reported : LedgerHeaderHistoryEntry} {has : HistoryArchiveState}
    (hhas : w.archive.states w.firstCheckpointSeq = some has)
    (h : w.run lm n firstVerified lastVerified node = .ok (node', reported)) :
    (w.archive.ledgers w.firstCheckpointSeq).getLast? = some reported ∧
      ∀ m < kNumLevels, ∃ i, has.currentBuckets[m]? = some i ∧ Holds i (node'.mLevels m) := by
  simp only [run, bind_eq_ok] at h
  obtain ⟨remote, hremote, chain, hchain, h⟩ := h
  obtain rfl : has = remote := by
    simp only [getHistoryArchiveState, hhas] at hremote
    split_ifs at hremote
    cases hremote
    rfl
  split at h
  · cases h
  simp only [bind_eq_ok] at h
  obtain ⟨⟨mBuckets, node₁⟩, -, node₂, happly, h⟩ := h
  cases h
  exact ⟨verifyLedgers_ok hchain, applyBuckets_ok happly⟩

end CatchupMinimalWork

/-- **A minimal catchup installs the verified state exactly when the archive's state is the one of
the header.** That is the last header in the file of the first checkpoint. -/
theorem installs_iff {Db : Type} (w : CatchupMinimalWork Db)
    (hinj : Function.Injective w.sha256Hashes) (lm : LedgerManager) (n : ℕ)
    (firstVerified lastVerified : LedgerHeaderHistoryEntry) (node node' : Node Db)
    (reported : LedgerHeaderHistoryEntry) (has : HistoryArchiveState)
    (hhas : w.archive.states w.firstCheckpointSeq = some has)
    (hrun : w.run lm n firstVerified lastVerified node = .ok (node', reported)) :
    w.Installs has node' reported ↔
      has.currentBuckets.length = kNumLevels ∧
        (w.archive.ledgers w.firstCheckpointSeq).getLast?.map (fun e => e.header.bucketListHash) =
          some (w.getBucketListHash has) := by
  obtain ⟨hreported, hlevels⟩ := CatchupMinimalWork.run_ok hhas hrun
  obtain ⟨hlen, hhash⟩ := CatchupMinimalWork.getHash_eq (w := w) hlevels
  rw [hreported, Option.map_some, Option.some_inj]
  have hagree : w.getHash node' = w.getBucketListHash has ↔
      has.currentBuckets.length = kNumLevels := by
    rw [hhash]
    constructor
    · intro h
      have hmap := congrArg List.length (hinj h)
      simp only [List.length_map, List.length_take] at hmap
      omega
    · intro h
      rw [List.take_of_length_le h.le]
  constructor
  · intro h
    exact ⟨hagree.mp h.agrees, by rw [← h.agrees, h.verified]⟩
  · rintro ⟨hl, heq⟩
    exact ⟨by rw [hagree.mpr hl, heq], hagree.mpr hl⟩

/-! ## An archive with one bucket -/

/-- A hash of files. -/
def fileHash (contents : List UInt8) : Hash := Encodable.encode (contents.map UInt8.toNat)

/-- The state with one bucket, in the youngest level. -/
def stateWith (bucket : Hash) : HistoryArchiveState where
  currentBuckets := { curr := bucket, snap := 0 } :: List.replicate 10 { curr := 0, snap := 0 }

/-- Ledger 63, as the network has closed it: its bucket is the file `[1]`. -/
def closed63 : LedgerHeader :=
  { header63 with
    bucketListHash := Encodable.encode
      (Encodable.encode [fileHash [1], 0] :: List.replicate 10 (Encodable.encode [0, 0])) }

/-- The node has heard of ledger 64. -/
def waitingFor64 : LedgerManager where
  mLastClosedLedger := headerOf 1
  mCurrentLedger := Application.nextHeader (headerOf 1)
  mSyncingLedgers := [⟨64, ⟨pairHash closed63, 0⟩, ⟨0, 0⟩, rfl⟩]

/-- It catches up from an archive that has the right header, the given state, and two buckets. -/
def minimalTo63 (has : HistoryArchiveState) : CatchupMinimalWork Unit where
  sha256 := pairHash
  sha256Hashes := Encodable.encode
  sha256File := fileHash
  applyBucket _ db := some db
  accelerated := false
  CATCHUP_RECENT := 0
  mInitLedger := 64
  mManualCatchup := false
  mLocalState := stateWith 0
  archive :=
    { states := fun c => if c = 63 then some has else none
      ledgers := fun c => if c = 63 then [⟨pairHash closed63, closed63⟩] else []
      buckets := fun h =>
        if h = fileHash [1] then some [1] else if h = fileHash [2] then some [2] else none }

def freshNode : Node Unit := ⟨fun _ => none, fun _ => {}, ()⟩

theorem ok_of_toOption {α : Type} {x : Except CatchupFailure α} {a : α}
    (h : x.toOption = some a) : x = .ok a := by
  cases x with
  | error e => cases h
  | ok b => exact congrArg Except.ok (Option.some.inj h)

theorem installs_minimalTo63 :
    ∃ node', (minimalTo63 (stateWith (fileHash [1]))).run waitingFor64 1 emptyEntry emptyEntry
        freshNode = .ok (node', ⟨pairHash closed63, closed63⟩) ∧
      (minimalTo63 (stateWith (fileHash [1]))).Installs (stateWith (fileHash [1])) node'
        ⟨pairHash closed63, closed63⟩ := by
  have hrun : ((minimalTo63 (stateWith (fileHash [1]))).run waitingFor64 1 emptyEntry emptyEntry
      freshNode).toOption.map Prod.snd = some ⟨pairHash closed63, closed63⟩ := by
    decide +kernel
  obtain ⟨⟨node', reported⟩, hr, rfl⟩ := Option.map_eq_some_iff.mp hrun
  have hok := ok_of_toOption hr
  refine ⟨node', hok, (installs_iff _ Encodable.encode_injective _ _ _ _ _ _ _ _ ?_ hok).mpr ⟨?_, ?_⟩⟩
  · decide +kernel
  · decide
  · decide +kernel

/-- The archive names another bucket, and serves it. The catchup succeeds and reports the header of
the network. -/
theorem other_buckets_installed :
    Function.Injective (minimalTo63 (stateWith (fileHash [2]))).sha256 ∧
    Function.Injective (minimalTo63 (stateWith (fileHash [2]))).sha256Hashes ∧
    ∃ node', (minimalTo63 (stateWith (fileHash [2]))).run waitingFor64 1 emptyEntry emptyEntry
        freshNode = .ok (node', ⟨pairHash closed63, closed63⟩) ∧
      (minimalTo63 (stateWith (fileHash [2]))).getHash node' ≠ closed63.bucketListHash := by
  refine ⟨pairHash_injective, Encodable.encode_injective, ?_⟩
  have hrun : ((minimalTo63 (stateWith (fileHash [2]))).run waitingFor64 1 emptyEntry emptyEntry
      freshNode).toOption.map (fun r => (r.2, decide
        ((minimalTo63 (stateWith (fileHash [2]))).getHash r.1 = closed63.bucketListHash))) =
      some (⟨pairHash closed63, closed63⟩, false) := by
    decide +kernel
  obtain ⟨⟨node', reported⟩, hr, heq⟩ := Option.map_eq_some_iff.mp hrun
  obtain ⟨hreported, hne⟩ := Prod.mk.inj heq
  obtain rfl : reported = ⟨pairHash closed63, closed63⟩ := hreported
  exact ⟨node', ok_of_toOption hr, of_decide_eq_false hne⟩

end SmartCore.History
