import Mathlib.Logic.Function.Basic
import SmartCore.Buckets.Bucket

/-!
# The bucket list

Eleven levels, each with a current bucket, a snapshot of an earlier one, and a merge that will
give the next current bucket. Level `i` has size `4 ^ (i + 1)` and spills whenever the ledger is a
multiple of half its size: its current bucket becomes the snapshot, and a merge of the snapshot
into the next level is prepared, to be committed at the next spill.

Merges run in the background. A `FutureBucket` is one of these merges, or what a saved state says
about it: only hashes. Nothing depends on when a merge is complete, since `resolve` waits for it;
it may also be resolved earlier (`resolveReady`).

An assertion that fails ends a run with the `AssertSite` it stands at.
-/

namespace SmartCore.Buckets

variable {K E : Type} [Keyed E K] [LinearOrder K]

/-- The hash of a bucket's file. -/
abbrev Hash := ℕ

/-- The assertions of the bucket list. -/
inductive AssertSite where
  | ledger
  | shadows
  | shadowsLeft
  | commitMerging
  | prepareMerging
  | prepareNotMerging
  | resolveLive
  | mergeOrder
deriving DecidableEq, Repr

/-- `assert` -/
def assertThat (cond : Bool) (site : AssertSite) : Except AssertSite Unit :=
  if cond then pure () else throw site

@[simp] theorem assertThat_true (site : AssertSite) : assertThat true site = pure () := rfl

/-! ## Merges in the background -/

/-- A `FutureBucket` with what it holds in each of its states. -/
inductive FutureBucket (E K : Type) [Keyed E K] [LinearOrder K] where
  | FB_CLEAR
  | FB_HASH_OUTPUT (outputHash : Hash)
  | FB_HASH_INPUTS (currHash snapHash : Hash) (shadowHashes : List Hash) (mKeepDeadEntries : Bool)
  | FB_LIVE_OUTPUT (output : Bucket E K)
  | FB_LIVE_INPUTS (curr snap : Bucket E K) (shadows : List (Bucket E K)) (mKeepDeadEntries : Bool)

namespace FutureBucket

def isLive : FutureBucket E K → Bool
  | FB_LIVE_INPUTS .. => true
  | FB_LIVE_OUTPUT _ => true
  | _ => false

/-- A merge is running. -/
def isMerging : FutureBucket E K → Bool
  | FB_LIVE_INPUTS .. => true
  | _ => false

def hasHashes : FutureBucket E K → Bool
  | FB_HASH_INPUTS .. => true
  | FB_HASH_OUTPUT _ => true
  | _ => false

/-- What the merge gives once it is complete. -/
def output? : FutureBucket E K → Option (Bucket E K)
  | FB_LIVE_INPUTS curr snap shadows keepDeadEntries =>
    Bucket.merge curr snap shadows keepDeadEntries
  | FB_LIVE_OUTPUT output => some output
  | _ => none

/-- Waits for the merge and returns its output, which also becomes the state. -/
def resolve (fb : FutureBucket E K) : Except AssertSite (Bucket E K × FutureBucket E K) := do
  assertThat fb.isLive .resolveLive
  match fb.output? with
  | some bucket => pure (bucket, FB_LIVE_OUTPUT bucket)
  | none => throw .mergeOrder

end FutureBucket

/-! ## Levels -/

structure BucketLevel (E K : Type) [Keyed E K] [LinearOrder K] where
  mLevel : ℕ
  mCurr : Bucket E K := {}
  mSnap : Bucket E K := {}
  mNextCurr : FutureBucket E K := .FB_CLEAR

def kNumLevels : ℕ := 11

/-- The calls are for levels below `kNumLevels`, as the source asserts. -/
def levelSize (level : ℕ) : UInt32 := UInt32.ofNat (1 <<< (2 * (level + 1)))

def levelHalf (level : ℕ) : UInt32 := levelSize level >>> 1

def mask (v m : UInt32) : UInt32 := v &&& ~~~(m - 1)

def levelShouldSpill (ledger : UInt32) (level : ℕ) : Bool :=
  -- there's a max level, that never spills
  if level = kNumLevels - 1 then false
  else decide (ledger = mask ledger (levelHalf level) ∨ ledger = mask ledger (levelSize level))

namespace BucketLevel

/-- Setting `mCurr` clears `mNextCurr`. -/
def setCurr (level : BucketLevel E K) (b : Bucket E K) : BucketLevel E K :=
  { level with mNextCurr := .FB_CLEAR, mCurr := b }

def commit (level : BucketLevel E K) : Except AssertSite (BucketLevel E K) := do
  let level ←
    if level.mNextCurr.isLive then do
      let r ← level.mNextCurr.resolve
      pure (level.setCurr r.1)
    else pure level
  assertThat (!level.mNextCurr.isMerging) .commitMerging
  pure level

def prepare (level : BucketLevel E K) (currLedger : UInt32) (snap : Bucket E K)
    (shadows : List (Bucket E K)) : Except AssertSite (BucketLevel E K) := do
  -- if more than one absorb is pending at the same time, there is a logic error in the caller
  assertThat (!level.mNextCurr.isMerging) .prepareMerging
  -- the next state of `mCurr` is `mCurr` merged with `snap`, or else just `snap`, if `mCurr` is
  -- going to be snapshotted itself in the next spill
  let nextChangeLedger := currLedger + levelHalf (level.mLevel - 1)
  let curr := if 0 < level.mLevel ∧ levelShouldSpill nextChangeLedger level.mLevel then {}
    else level.mCurr
  let keepDeadEntries := decide (level.mLevel < kNumLevels - 1)
  let level := { level with mNextCurr := .FB_LIVE_INPUTS curr snap shadows keepDeadEntries }
  assertThat level.mNextCurr.isMerging .prepareNotMerging
  pure level

/-- Pull `mCurr` out of the way; the result is the new snapshot. -/
def snap (level : BucketLevel E K) : BucketLevel E K × Bucket E K :=
  ({ level with mSnap := level.mCurr, mCurr := {} }, level.mCurr)

end BucketLevel

/-! ## The list -/

/-- The levels below `kNumLevels`. -/
structure BucketList (E K : Type) [Keyed E K] [LinearOrder K] where
  mLevels : ℕ → BucketLevel E K := fun i => { mLevel := i }

namespace BucketList

def setLevel (bl : BucketList E K) (i : ℕ) (level : BucketLevel E K) : BucketList E K :=
  ⟨Function.update bl.mLevels i level⟩

/-- The buckets from the newest to the oldest. -/
def buckets (bl : BucketList E K) : List (Bucket E K) :=
  (List.range kNumLevels).flatMap fun i => [(bl.mLevels i).mCurr, (bl.mLevels i).mSnap]

/-- Level `i - 1` spills into level `i`. -/
def spill (bl : BucketList E K) (currLedger : UInt32) (shadows : List (Bucket E K)) (i : ℕ) :
    Except AssertSite (BucketList E K) := do
  let (level, snap) := (bl.mLevels (i - 1)).snap
  let bl := bl.setLevel (i - 1) level
  let level ← (bl.mLevels i).commit
  let level ← level.prepare currLedger snap shadows
  pure (bl.setLevel i level)

/-- The loop of `addBatch` for the levels from `i` down to 1. Each round takes two more buckets from
the end of `shadows`, so that those of levels `i - 2` and below are left for level `i`. -/
def spillLoop (currLedger : UInt32) : ℕ → List (Bucket E K) → BucketList E K →
    Except AssertSite (List (Bucket E K) × BucketList E K)
  | 0, shadows, bl => pure (shadows, bl)
  | i + 1, shadows, bl => do
    assertThat (decide (2 ≤ shadows.length)) .shadows
    let shadows := shadows.dropLast.dropLast
    if levelShouldSpill currLedger i then do
      let bl ← bl.spill currLedger shadows (i + 1)
      spillLoop currLedger i shadows bl
    else spillLoop currLedger i shadows bl

def addBatch (bl : BucketList E K) (currLedger : UInt32) (batch : Batch E K) :
    Except AssertSite (BucketList E K) := do
  assertThat (decide (0 < currLedger)) .ledger
  let shadows := bl.buckets
  assertThat (decide (2 ≤ shadows.length)) .shadows
  let (shadows, bl) ← spillLoop currLedger (kNumLevels - 1) shadows.dropLast.dropLast bl
  assertThat (decide (shadows.length = 0)) .shadowsLeft
  match Bucket.fresh batch.liveEntries batch.deadEntries with
  | none => throw .mergeOrder
  | some fresh => do
    let level ← (bl.mLevels 0).prepare currLedger fresh shadows
    let level ← level.commit
    pure (bl.setLevel 0 level)

/-- Some merges have been found complete, and were resolved. -/
def resolveReady (bl : BucketList E K) (ready : ℕ → Bool) : BucketList E K where
  mLevels i :=
    let level := bl.mLevels i
    if ready i then
      match level.mNextCurr.resolve with
      | .ok (_, next) => { level with mNextCurr := next }
      | .error _ => level
    else level

/-- What the list says about a key: the first bucket that mentions it decides. -/
def view (bl : BucketList E K) (k : K) : Option E :=
  (bl.buckets.findSome? fun b => b.find k).bind BucketEntry.live?

end BucketList

/-! ## Histories -/

/-- A list to which the batches of the ledgers after `closed` are added; after ledger `i + 1` the
merges `ready i` are found complete. -/
def addBatches (ready : ℕ → ℕ → Bool) (closed : ℕ) (batches : List (Batch E K))
    (bl : BucketList E K) : Except AssertSite (BucketList E K) :=
  (batches.zipIdx closed).foldlM (fun bl b => do
    let bl ← bl.addBatch (UInt32.ofNat (b.2 + 1)) b.1
    pure (bl.resolveReady (ready b.2))) bl

/-- The list after the batches of ledgers 1, 2, … -/
def runBatches (ready : ℕ → ℕ → Bool) (batches : List (Batch E K)) :
    Except AssertSite (BucketList E K) :=
  addBatches ready 0 batches {}

/-- The ledger after the batches: what the last one that mentions a key says about it. -/
def ledgerAfter (batches : List (Batch E K)) (k : K) : Option E :=
  batches.foldl (fun entry batch => ((batch.find k).map BucketEntry.live?).getD entry) none

end SmartCore.Buckets
