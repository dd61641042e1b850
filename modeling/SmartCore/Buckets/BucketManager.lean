import SmartCore.Buckets.Restart
import SmartCore.Lib.Code

/-!
# The bucket manager

The bucket directory has a file for each bucket, under its hash, and `mSharedBuckets` has at most
one object for a file. When an object is destroyed it removes its file, unless it retains it; a new
object does not. Objects are made for files that are adopted and for files that are asked for.

**Theorem (`addBatch_spec`, `assumeState_spec`).** Whatever a list refers to has its file when a
batch has been added and when a saved state has been assumed, and no file is removed by that.

**Theorem (`forgetUnreferencedBuckets_spec`).** Files that the list or a queued state refers to are
not forgotten, and every object that is left retains its file.
-/

namespace SmartCore.Buckets

variable {K E : Type} [Keyed E K] [LinearOrder K] {ε : Type}

/-! ## Hashes -/

/-- A bucket without entries has no file, and its hash is zero. -/
def Bucket.getHash (sha256 : List (BucketEntry E K) → Hash) (b : Bucket E K) : Hash :=
  if b.entries.isEmpty then 0 else sha256 b.entries

/-- The hashes a `FutureBucket` refers to. -/
def FutureBucket.getHashes (sha256 : List (BucketEntry E K) → Hash) :
    FutureBucket E K → List Hash
  | FB_CLEAR => []
  | FB_HASH_OUTPUT outputHash => [outputHash]
  | FB_HASH_INPUTS currHash snapHash shadowHashes _ => currHash :: snapHash :: shadowHashes
  | FB_LIVE_OUTPUT output => [output.getHash sha256]
  | FB_LIVE_INPUTS curr snap shadows _ =>
    curr.getHash sha256 :: snap.getHash sha256 :: shadows.map (·.getHash sha256)

def SavedFuture.getHashes : SavedFuture → List Hash
  | FB_CLEAR => []
  | FB_HASH_OUTPUT output => [output]
  | FB_HASH_INPUTS curr snap shadow => curr :: snap :: shadow

/-- All buckets that the state refers to. -/
def HistoryArchiveState.allBuckets (has : HistoryArchiveState) : List Hash :=
  (List.range kNumLevels).flatMap fun i =>
    (has.currentBuckets i).curr :: (has.currentBuckets i).snap ::
      (has.currentBuckets i).next.getHashes

structure BucketManager (E K : Type) [Keyed E K] [LinearOrder K] where
  bucketDir : Hash → Option (Bucket E K) := fun _ => none
  /-- `mRetain` of the object for each hash that has one. -/
  mSharedBuckets : Hash → Option Bool := fun _ => none
  mBucketList : BucketList E K := {}
  /-- The levels whose merge has been completed by its worker. -/
  mergeComplete : ℕ → Bool := fun _ => false

namespace BucketManager

abbrev ManagerM (E K : Type) [Keyed E K] [LinearOrder K] (ε α : Type) :=
  EStateM ε (BucketManager E K) α

/-! ## Objects and files -/

/-- An object always has its file (`Ok.backed`), so looking for the file is enough. -/
def getBucketByHash (h : Hash) : ManagerM E K ε (Option (Bucket E K)) := do
  if h = 0 then
    return some {}
  else
    let m ← get
    runIf ((m.mSharedBuckets h).isNone ∧ (m.bucketDir h).isSome) do
      modify fun m => { m with mSharedBuckets := Function.update m.mSharedBuckets h (some false) }
    return m.bucketDir h

/-- The object of a bucket without a file is not shared. -/
def setRetain (h : Hash) (r : Bool) : ManagerM E K ε Unit :=
  modify fun m =>
    if (m.mSharedBuckets h).isSome then
      { m with mSharedBuckets := Function.update m.mSharedBuckets h (some r) }
    else m

/-- The hashes in a state whose files are not there. -/
def checkForMissingBucketsFiles (has : HistoryArchiveState) (m : BucketManager E K) : List Hash :=
  has.allBuckets.filter fun h => h ≠ 0 ∧ (m.bucketDir h).isNone

section Files

variable (sha256 : List (BucketEntry E K) → Hash)

/-- A file that is there already makes the adopted one redundant. -/
def adoptFileAsBucket (b : Bucket E K) : ManagerM E K ε (Bucket E K) := do
  let found ← getBucketByHash (b.getHash sha256)
  match found with
  | some b => return b
  | none => do
    modify fun m => { m with
      bucketDir := Function.update m.bucketDir (b.getHash sha256) (some b)
      mSharedBuckets := Function.update m.mSharedBuckets (b.getHash sha256) (some false) }
    return b

/-- `Bucket::fresh`, which adopts the buckets of the live and of the dead entries, too. -/
def fresh (batch : Batch E K) : ManagerM E K AssertSite (Bucket E K) := do
  let liveOut ← deref (writeSorted (batch.liveEntries.map .LIVEENTRY)) .mergeOrder
  let deadOut ← deref (writeSorted (batch.deadEntries.map .DEADENTRY)) .mergeOrder
  let liveBucket ← adoptFileAsBucket sha256 liveOut
  let deadBucket ← adoptFileAsBucket sha256 deadOut
  let out ← deref (Bucket.merge liveBucket deadBucket [] true) .mergeOrder
  adoptFileAsBucket sha256 out

/-! ## Levels -/

def setLevel (i : ℕ) (level : BucketLevel E K) : ManagerM E K ε Unit :=
  modify fun m => { m with mBucketList := m.mBucketList.setLevel i level }

def setCurr (i : ℕ) (b : Bucket E K) : ManagerM E K ε Unit := do
  let level := (← get).mBucketList.mLevels i
  setRetain (level.mCurr.getHash sha256) false
  setLevel i (level.setCurr b)
  setRetain (b.getHash sha256) true

def setSnap (i : ℕ) (b : Bucket E K) : ManagerM E K ε Unit := do
  let level := (← get).mBucketList.mLevels i
  setRetain (level.mSnap.getHash sha256) false
  setLevel i { level with mSnap := b }
  setRetain (b.getHash sha256) true

/-- All buckets are retained while they are merged. -/
def retainInputs (next : FutureBucket E K) : ManagerM E K ε Unit :=
  next.buckets.forM fun b => setRetain (b.getHash sha256) true

/-- The merge of a level is handed to a worker. -/
def startMerge (i : ℕ) (level : BucketLevel E K) : ManagerM E K ε Unit := do
  modify fun m => { m with
    mBucketList := m.mBucketList.setLevel i level
    mergeComplete := Function.update m.mergeComplete i false }
  retainInputs sha256 level.mNextCurr

/-- The worker adopts the output of the merge of a level. -/
def completeMerge (i : ℕ) : ManagerM E K AssertSite Unit := do
  let next := (← get).mBucketList.mLevels i |>.mNextCurr
  runIf next.isMerging do
    let b ← deref next.output? .mergeOrder
    let _ ← adoptFileAsBucket sha256 b
    modify fun m => { m with mergeComplete := Function.update m.mergeComplete i true }

/-- `resolve` waits for the worker. -/
def resolve (next : FutureBucket E K) : ManagerM E K AssertSite (Bucket E K) := do
  let r ← MonadExcept.ofExcept next.resolve
  if next.isMerging then
    adoptFileAsBucket sha256 r.1
  else
    return r.1

def commit (i : ℕ) : ManagerM E K AssertSite Unit := do
  let next := (← get).mBucketList.mLevels i |>.mNextCurr
  runIf next.isLive do
    let b ← resolve sha256 next
    setCurr sha256 i b
  let level := (← get).mBucketList.mLevels i
  require (!level.mNextCurr.isMerging) .commitMerging

def prepare (currLedger : UInt32) (i : ℕ) (snap : Bucket E K) (shadows : List (Bucket E K)) :
    ManagerM E K AssertSite Unit := do
  let level := (← get).mBucketList.mLevels i
  let level ← MonadExcept.ofExcept (level.prepare currLedger snap shadows)
  startMerge sha256 i level

/-! ## Adding a batch -/

/-- Level `i - 1` spills into level `i`. `snap` leaves `mRetain` of its objects as it is. -/
def spill (currLedger : UInt32) (shadows : List (Bucket E K)) (i : ℕ) :
    ManagerM E K AssertSite Unit := do
  let r := ((← get).mBucketList.mLevels (i - 1)).snap
  setLevel (i - 1) r.1
  commit sha256 i
  prepare sha256 currLedger i r.2 shadows

def spillLoop (currLedger : UInt32) : ℕ → List (Bucket E K) →
    ManagerM E K AssertSite (List (Bucket E K))
  | 0, shadows => return shadows
  | i + 1, shadows => do
    require (2 ≤ shadows.length) .shadows
    let shadows := shadows.dropLast.dropLast
    runIf (levelShouldSpill currLedger i) (spill sha256 currLedger shadows (i + 1))
    spillLoop currLedger i shadows

def addBatch (currLedger : UInt32) (batch : Batch E K) : ManagerM E K AssertSite Unit := do
  require (0 < currLedger) .ledger
  let shadows := (← get).mBucketList.buckets
  require (2 ≤ shadows.length) .shadows
  let shadows ← spillLoop sha256 currLedger (kNumLevels - 1) shadows.dropLast.dropLast
  require (shadows.length = 0) .shadowsLeft
  let snap ← fresh sha256 batch
  prepare sha256 currLedger 0 snap shadows
  commit sha256 0

/-! ## Starting again -/

def assumeLevel (has : HistoryArchiveState) (mKeepDeadEntries : ℕ → Bool) (i : ℕ) :
    ManagerM E K AssumeError Unit := do
  let curr ← getBucketByHash (has.currentBuckets i).curr
  let snap ← getBucketByHash (has.currentBuckets i).snap
  let curr ← deref curr .missingBucketFiles
  let snap ← deref snap .missingBucketFiles
  setCurr sha256 i curr
  setSnap sha256 i snap
  let level := (← get).mBucketList.mLevels i
  setLevel i { level with
    mNextCurr := FutureBucket.load (mKeepDeadEntries i) (has.currentBuckets i).next }

/-- A bucket that has to be there. -/
def fetch (h : Hash) : ManagerM E K AssumeError (Bucket E K) := do
  let b ← getBucketByHash h
  deref b .missingInput

/-- `makeLive` of a merge that is known by its hashes. The inputs are retained by `startMerge`. -/
def makeLive : FutureBucket E K → ManagerM E K AssumeError (FutureBucket E K)
  | .FB_HASH_OUTPUT outputHash => do
    let output ← fetch outputHash
    return .FB_LIVE_OUTPUT output
  | .FB_HASH_INPUTS currHash snapHash shadowHashes mKeepDeadEntries => do
    let curr ← fetch currHash
    let snap ← fetch snapHash
    let shadows ← shadowHashes.mapM fetch
    return .FB_LIVE_INPUTS curr snap shadows mKeepDeadEntries
  | _ => throw .makeLive

def restartMerge (i : ℕ) : ManagerM E K AssumeError Unit := do
  let level := (← get).mBucketList.mLevels i
  runIf (level.mNextCurr.hasHashes && !level.mNextCurr.isLive) do
    let next ← makeLive level.mNextCurr
    if next.isMerging then
      startMerge sha256 i { level with mNextCurr := next }
    else
      setLevel i { level with mNextCurr := next }

def assumeState (has : HistoryArchiveState) (mKeepDeadEntries : ℕ → Bool) :
    ManagerM E K AssumeError Unit := do
  (List.range kNumLevels).forM (assumeLevel sha256 has mKeepDeadEntries)
  (List.range kNumLevels).forM (restartMerge sha256)

/-- `StateSnapshot::makeLive`, for a state that was read from the publish queue. -/
def makeSnapshotLive (has : HistoryArchiveState) : ManagerM E K AssumeError Unit :=
  (List.range kNumLevels).forM fun i => do
    let next := FutureBucket.load false (has.currentBuckets i).next
    runIf (next.hasHashes && !next.isLive) do
      let next ← makeLive next
      runIf next.isMerging (retainInputs sha256 next)

/-! ## Forgetting -/

/-- What the list refers to, and the states of the publish queue. -/
def referenced (pub : List HistoryArchiveState) (m : BucketManager E K) : List Hash :=
  ((List.range kNumLevels).flatMap fun i =>
    let level := m.mBucketList.mLevels i
    level.mCurr.getHash sha256 :: level.mSnap.getHash sha256 ::
      level.mNextCurr.getHashes sha256) ++ pub.flatMap HistoryArchiveState.allBuckets

/-- The outputs that are kept in the futures of completed merges. -/
def outputs (m : BucketManager E K) : List Hash :=
  (List.range kNumLevels).flatMap fun i =>
    if m.mergeComplete i then
      ((m.mBucketList.mLevels i).mNextCurr.output?).toList.map (·.getHash sha256)
    else []

/-- The object is referenced, or not only by `mSharedBuckets`. `held` are those that workers and
publications refer to. -/
def kept (pub : List HistoryArchiveState) (held : Hash → Bool) (m : BucketManager E K) (h : Hash) :
    Bool :=
  decide (h ∈ m.referenced sha256 pub) || decide (h ∈ m.outputs sha256) || held h

/-- An object that is dropped removes its file, all others retain theirs. -/
def forgetUnreferencedBuckets (pub : List HistoryArchiveState) (held : Hash → Bool)
    (m : BucketManager E K) : BucketManager E K :=
  { m with
    bucketDir := fun h =>
      if (m.mSharedBuckets h).isSome ∧ ¬ m.kept sha256 pub held h then none else m.bucketDir h
    mSharedBuckets := fun h =>
      if m.kept sha256 pub held h then (m.mSharedBuckets h).map fun _ => true else none }

end Files

/-- All objects are destroyed. -/
def shutdown (m : BucketManager E K) : BucketManager E K where
  bucketDir h := if m.mSharedBuckets h = some false then none else m.bucketDir h

/-- The process dies; the files stay. -/
def crash (m : BucketManager E K) : BucketManager E K where
  bucketDir := m.bucketDir

/-! ## What holds of files -/

/-- The file is there, if there is one for the hash. -/
def HasFile (m : BucketManager E K) (h : Hash) : Prop := h = 0 ∨ (m.bucketDir h).isSome

/-- The hashes of a level: those of its buckets, of its merge, and of the output if that is
complete. -/
def levelHashes (sha256 : List (BucketEntry E K) → Hash) (complete : Bool)
    (level : BucketLevel E K) : List Hash :=
  level.mCurr.getHash sha256 :: level.mSnap.getHash sha256 ::
    (level.mNextCurr.getHashes sha256 ++
      if complete then level.mNextCurr.output?.toList.map (·.getHash sha256) else [])

/-- The list uses a hash. -/
def Uses (sha256 : List (BucketEntry E K) → Hash) (m : BucketManager E K) (h : Hash) : Prop :=
  ∃ i < kNumLevels, h ∈ levelHashes sha256 (m.mergeComplete i) (m.mBucketList.mLevels i)

/-- Files are named by their hashes, and objects have their files. -/
structure Ok (sha256 : List (BucketEntry E K) → Hash) (m : BucketManager E K) : Prop where
  named : ∀ h b, m.bucketDir h = some b → b.getHash sha256 = h
  backed : ∀ h, (m.mSharedBuckets h).isSome → (m.bucketDir h).isSome

/-- Since `m₀` no file has been removed. -/
structure Safe (sha256 : List (BucketEntry E K) → Hash) (m₀ m : BucketManager E K) : Prop where
  ok : Ok sha256 m
  grown : ∀ h, m₀.HasFile h → m.HasFile h

/-- Since `m₀` no file has been removed, and what the list uses has its file. -/
structure Going (sha256 : List (BucketEntry E K) → Hash) (m₀ m : BucketManager E K) : Prop
    extends Safe sha256 m₀ m where
  used : ∀ h, Uses sha256 m h → m.HasFile h

variable {sha256 : List (BucketEntry E K) → Hash} {m₀ m m' : BucketManager E K}

@[simp] theorem hasFile_zero : m.HasFile 0 := Or.inl rfl

@[simp] theorem getHash_empty : ({} : Bucket E K).getHash sha256 = 0 := rfl

theorem mem_referenced {pub : List HistoryArchiveState} {h : Hash} :
    h ∈ m.referenced sha256 pub ∨ h ∈ m.outputs sha256 ↔
      Uses sha256 m h ∨ ∃ has ∈ pub, h ∈ has.allBuckets := by
  simp only [referenced, outputs, Uses, levelHashes, List.mem_append, List.mem_flatMap,
    List.mem_range, List.mem_cons]
  constructor
  · intro hmem
    rcases hmem with (⟨i, hi, hmem⟩ | hpub) | ⟨i, hi, hmem⟩
    · refine Or.inl ⟨i, hi, ?_⟩
      tauto
    · exact Or.inr hpub
    · exact Or.inl ⟨i, hi, Or.inr (Or.inr (Or.inr hmem))⟩
  · intro hmem
    rcases hmem with ⟨i, hi, hmem | hmem | hmem | hmem⟩ | hpub
    · exact Or.inl (Or.inl ⟨i, hi, Or.inl hmem⟩)
    · exact Or.inl (Or.inl ⟨i, hi, Or.inr (Or.inl hmem)⟩)
    · exact Or.inl (Or.inl ⟨i, hi, Or.inr (Or.inr hmem)⟩)
    · exact Or.inr ⟨i, hi, hmem⟩
    · exact Or.inl (Or.inr hpub)

theorem Safe.refl (h : Ok sha256 m) : Safe sha256 m m := ⟨h, fun _ hf => hf⟩

theorem Safe.trans {m₁ : BucketManager E K} (h : Safe sha256 m₀ m₁) (h' : Safe sha256 m₁ m) :
    Safe sha256 m₀ m :=
  ⟨h'.ok, fun x hx => h'.grown x (h.grown x hx)⟩

/-! ## Objects and files -/

/-- The list and its merges are as before, and no file has been removed. -/
structure Aside (sha256 : List (BucketEntry E K) → Hash) (m m' : BucketManager E K) : Prop
    extends Safe sha256 m m' where
  list : m'.mBucketList = m.mBucketList
  complete : m'.mergeComplete = m.mergeComplete

theorem Aside.refl (h : Ok sha256 m) : Aside sha256 m m := ⟨Safe.refl h, rfl, rfl⟩

theorem Aside.trans {m₁ : BucketManager E K} (h : Aside sha256 m₀ m₁) (h' : Aside sha256 m₁ m) :
    Aside sha256 m₀ m :=
  ⟨h.toSafe.trans h'.toSafe, h'.list.trans h.list, h'.complete.trans h.complete⟩

theorem Aside.uses (h : Aside sha256 m m') (x : Hash) : Uses sha256 m' x ↔ Uses sha256 m x := by
  unfold Uses
  rw [h.list, h.complete]

theorem Going.aside (hg : Going sha256 m₀ m) (h : Aside sha256 m m') : Going sha256 m₀ m' :=
  ⟨hg.toSafe.trans h.toSafe, fun x hx => h.grown x (hg.used x ((h.uses x).mp hx))⟩

/-- Only objects differ. -/
structure Still (sha256 : List (BucketEntry E K) → Hash) (m m' : BucketManager E K) : Prop
    extends Aside sha256 m m' where
  dir : m'.bucketDir = m.bucketDir

theorem Still.refl (h : Ok sha256 m) : Still sha256 m m := ⟨Aside.refl h, rfl⟩

theorem Still.trans {m₁ : BucketManager E K} (h : Still sha256 m₀ m₁) (h' : Still sha256 m₁ m) :
    Still sha256 m₀ m :=
  ⟨h.toAside.trans h'.toAside, h'.dir.trans h.dir⟩

/-- A new object for a file that is there, or another flag. -/
theorem still_share (hok : Ok sha256 m) {h : Hash} (hf : (m.bucketDir h).isSome) (r : Bool) :
    Still sha256 m { m with mSharedBuckets := Function.update m.mSharedBuckets h (some r) } := by
  refine ⟨⟨⟨⟨hok.named, fun x hx => ?_⟩, fun _ hx => hx⟩, rfl, rfl⟩, rfl⟩
  by_cases hxh : x = h
  · rw [hxh]
    exact hf
  · simp only [Function.update_of_ne hxh] at hx
    exact hok.backed x hx

/-- The bucket that is found for a hash. -/
def find (m : BucketManager E K) (h : Hash) : Option (Bucket E K) :=
  if h = 0 then some {} else m.bucketDir h

theorem find_some (hok : Ok sha256 m) {h : Hash} {b : Bucket E K} (hb : m.find h = some b) :
    b.getHash sha256 = h ∧ m.HasFile h := by
  unfold find at hb
  split_ifs at hb with hz
  · cases hb
    exact ⟨hz.symm, Or.inl hz⟩
  · exact ⟨hok.named h b hb, Or.inr (by simp [hb])⟩

theorem find_none {h : Hash} (hn : m.find h = none) : ¬ m.HasFile h := by
  unfold find at hn
  split_ifs at hn with hz
  simp [HasFile, hz, hn]

section Specs

variable {E' : ε → BucketManager E K → Prop}

theorem wp_getBucketByHash (hok : Ok sha256 m) (h : Hash) :
    wp (getBucketByHash h) (fun r m' => r = m.find h ∧ Still sha256 m m') E' m := by
  unfold getBucketByHash find
  split_ifs with hz
  · exact ⟨rfl, Still.refl hok⟩
  · rw [wp_bind, wp_get, wp_bind, wp_runIf]
    exact ⟨fun hnew => ⟨rfl, still_share hok hnew.2 false⟩, fun _ => ⟨rfl, Still.refl hok⟩⟩

theorem wp_setRetain (hok : Ok sha256 m) (h : Hash) (r : Bool) :
    wp (setRetain h r) (fun _ m' => Still sha256 m m') E' m := by
  unfold setRetain
  rw [wp_modify]
  split_ifs with hs
  · exact still_share hok (hok.backed h hs) r
  · exact Still.refl hok

theorem wp_adoptFileAsBucket (hok : Ok sha256 m) (b : Bucket E K) :
    wp (adoptFileAsBucket sha256 b) (fun b' m' => Aside sha256 m m' ∧
      b'.getHash sha256 = b.getHash sha256 ∧ m'.HasFile (b.getHash sha256)) E' m := by
  unfold adoptFileAsBucket
  rw [wp_bind]
  refine wp_mono (wp_getBucketByHash hok _) (fun r m₁ hr => ?_) fun _ _ h => h
  obtain ⟨hfind, hstill⟩ := hr
  have haside := hstill.toAside
  cases r with
  | some b' =>
    obtain ⟨hhash, hfile⟩ := find_some hok hfind.symm
    exact ⟨haside, hhash, haside.grown _ hfile⟩
  | none =>
    rw [wp_bind, wp_modify, wp_pure]
    have hfile : ∀ x, m₁.HasFile x → x = 0 ∨
        (Function.update m₁.bucketDir (b.getHash sha256) (some b) x).isSome := by
      intro x hx
      by_cases hxb : x = b.getHash sha256
      · simp [hxb]
      · rw [Function.update_of_ne hxb]
        exact hx
    have hok₁ := haside.ok
    refine ⟨⟨⟨⟨fun x b' hb' => ?_, fun x hx => ?_⟩, fun x hx => hfile x (haside.grown x hx)⟩,
      haside.list, haside.complete⟩, rfl, ?_⟩
    · by_cases hxb : x = b.getHash sha256
      · subst hxb
        simp only [Function.update_self] at hb'
        cases hb'
        rfl
      · simp only [Function.update_of_ne hxb] at hb'
        exact hok₁.named x b' hb'
    · by_cases hxb : x = b.getHash sha256
      · simp [hxb]
      · simp only [Function.update_of_ne hxb] at hx ⊢
        exact hok₁.backed x hx
    · exact Or.inr (by simp)

end Specs

/-! ## Levels -/

theorem Going.level (hg : Going sha256 m₀ m) {i : ℕ} (hi : i < kNumLevels) :
    ∀ h ∈ levelHashes sha256 (m.mergeComplete i) (m.mBucketList.mLevels i), m.HasFile h :=
  fun h hh => hg.used h ⟨i, hi, hh⟩

theorem Going.setLevel (hg : Going sha256 m₀ m) {i : ℕ} {level : BucketLevel E K} {c : ℕ → Bool}
    (hl : ∀ h ∈ levelHashes sha256 (c i) level, m.HasFile h)
    (hc : ∀ j, j ≠ i → c j = m.mergeComplete j) :
    Going sha256 m₀
      { m with mBucketList := m.mBucketList.setLevel i level, mergeComplete := c } := by
  refine ⟨⟨⟨hg.ok.named, hg.ok.backed⟩, hg.grown⟩, fun h hh => ?_⟩
  obtain ⟨j, hj, hh⟩ := hh
  by_cases hji : j = i
  · subst hji
    simp only [BucketList.setLevel, Function.update_self] at hh
    exact hl h hh
  · simp only [BucketList.setLevel, Function.update_of_ne hji, hc j hji] at hh
    exact hg.used h ⟨j, hj, hh⟩

section Specs

variable {E' : ε → BucketManager E K → Prop} {i : ℕ} {level : BucketLevel E K} {b : Bucket E K}

theorem wp_setLevel (hg : Going sha256 m₀ m)
    (hl : ∀ h ∈ levelHashes sha256 (m.mergeComplete i) level, m.HasFile h) :
    wp (setLevel i level) (fun _ m' => Going sha256 m₀ m') E' m :=
  hg.setLevel hl fun _ _ => rfl

/-- What `setCurr` and `setSnap` do: the object that is replaced no longer retains its file, the new
one does. -/
theorem wp_replace (hg : Going sha256 m₀ m) (old new : Hash)
    (hl : ∀ h ∈ levelHashes sha256 (m.mergeComplete i) level, m.HasFile h) :
    wp (do setRetain old false; setLevel i level; setRetain new true)
      (fun _ m' => Going sha256 m₀ m') E' m := by
  rw [wp_bind]
  refine wp_mono (wp_setRetain hg.ok old false) (fun _ m₁ h₁ => ?_) fun _ _ h => h
  rw [wp_bind]
  refine wp_mono (wp_setLevel (hg.aside h₁.toAside) fun h hh => ?_) (fun _ m₂ h₂ => ?_) fun _ _ h => h
  · rw [h₁.complete] at hh
    exact h₁.grown h (hl h hh)
  · exact wp_mono (wp_setRetain h₂.ok new true) (fun _ m₃ h₃ => h₂.aside h₃.toAside) fun _ _ h => h

theorem wp_setCurr (hg : Going sha256 m₀ m) (hi : i < kNumLevels)
    (hb : m.HasFile (b.getHash sha256)) :
    wp (setCurr sha256 i b) (fun _ m' => Going sha256 m₀ m') E' m := by
  unfold setCurr
  rw [wp_bind, wp_get]
  refine wp_replace hg _ _ fun h hh => ?_
  -- the merge of the level is cleared
  have hclear : h = b.getHash sha256 ∨ h = (m.mBucketList.mLevels i).mSnap.getHash sha256 := by
    simpa [levelHashes, BucketLevel.setCurr, FutureBucket.getHashes, FutureBucket.output?] using hh
  rcases hclear with rfl | rfl
  · exact hb
  · exact hg.level hi _ (by simp [levelHashes])

theorem wp_setSnap (hg : Going sha256 m₀ m) (hi : i < kNumLevels)
    (hb : m.HasFile (b.getHash sha256)) :
    wp (setSnap sha256 i b) (fun _ m' => Going sha256 m₀ m') E' m := by
  unfold setSnap
  rw [wp_bind, wp_get]
  refine wp_replace hg _ _ fun h hh => ?_
  by_cases hhb : h = b.getHash sha256
  · rw [hhb]
    exact hb
  · refine hg.level hi h ?_
    simp only [levelHashes, List.mem_cons, hhb, false_or] at hh ⊢
    rcases hh with hh | hh
    · exact Or.inl hh
    · exact Or.inr (Or.inr hh)

theorem wp_retainInputs (hok : Ok sha256 m) (next : FutureBucket E K) :
    wp (retainInputs sha256 next) (fun _ m' => Still sha256 m m') E' m :=
  wp_forM (I := fun m' => Still sha256 m m')
    (fun _ _ _ h' => wp_mono (wp_setRetain h'.ok _ _) (fun _ _ h'' => h'.trans h'') fun _ _ h => h)
    (Still.refl hok)

theorem wp_startMerge (hg : Going sha256 m₀ m)
    (hl : ∀ h ∈ levelHashes sha256 false level, m.HasFile h) :
    wp (startMerge sha256 i level) (fun _ m' => Going sha256 m₀ m') E' m := by
  unfold startMerge
  rw [wp_bind, wp_modify]
  have hg' := hg.setLevel (i := i) (c := Function.update m.mergeComplete i false)
    (by simpa using hl) fun j hj => Function.update_of_ne hj _ _
  exact wp_mono (wp_retainInputs hg'.ok _) (fun _ _ h => hg'.aside h.toAside) fun _ _ h => h

end Specs

section Levels

variable {i : ℕ} {b : Bucket E K} {currLedger : UInt32} {shadows : List (Bucket E K)}

/-- The output of a merge has its file once it is resolved. -/
theorem wp_resolve (hg : Going sha256 m₀ m) (hi : i < kNumLevels) :
    wp (resolve sha256 (m.mBucketList.mLevels i).mNextCurr)
      (fun b m' => Aside sha256 m m' ∧ m'.HasFile (b.getHash sha256))
      (fun _ m' => Safe sha256 m₀ m') m := by
  have hlevel := hg.level hi
  unfold resolve
  rw [wp_bind, wp_ofExcept]
  refine ⟨fun r hr => ?_, fun _ _ => hg.toSafe⟩
  rw [wp_ite]
  refine ⟨fun _ => ?_, fun hout => ?_⟩
  · exact wp_mono (wp_adoptFileAsBucket hg.ok _)
      (fun b' m' h => ⟨h.1, by rw [h.2.1]; exact h.2.2⟩) fun _ _ h => h
  · refine ⟨Aside.refl hg.ok, ?_⟩
    cases hn : (m.mBucketList.mLevels i).mNextCurr with
    | FB_LIVE_OUTPUT output =>
      rw [hn] at hr
      cases hr
      exact hlevel _ (by simp [levelHashes, hn, FutureBucket.getHashes])
    | FB_LIVE_INPUTS _ _ _ _ => simp [hn, FutureBucket.isMerging] at hout
    | FB_CLEAR => rw [hn] at hr; cases hr
    | FB_HASH_OUTPUT _ => rw [hn] at hr; cases hr
    | FB_HASH_INPUTS _ _ _ _ => rw [hn] at hr; cases hr

theorem wp_commit (hg : Going sha256 m₀ m) (hi : i < kNumLevels) :
    wp (commit sha256 i) (fun _ m' => Going sha256 m₀ m') (fun _ m' => Safe sha256 m₀ m') m := by
  unfold commit
  simp only [wp_bind, wp_get, wp_runIf, wp_require]
  refine ⟨fun _ => ?_, fun _ => ⟨fun _ => hg, fun _ => hg.toSafe⟩⟩
  refine wp_mono (wp_resolve hg hi) (fun b m₁ h₁ => ?_) fun _ _ h => h
  exact wp_mono (wp_setCurr (hg.aside h₁.1) hi h₁.2)
    (fun _ m₂ h₂ => ⟨fun _ => h₂, fun _ => h₂.toSafe⟩) fun _ _ h => h

/-- What a level refers to once a merge is prepared. -/
theorem mem_levelHashes_prepare {level level' : BucketLevel E K} {snap : Bucket E K}
    (hp : level.prepare currLedger snap shadows = .ok level') {h : Hash}
    (hh : h ∈ levelHashes sha256 false level') :
    h = 0 ∨ h = level.mCurr.getHash sha256 ∨ h = level.mSnap.getHash sha256 ∨
      h = snap.getHash sha256 ∨ ∃ b ∈ shadows, b.getHash sha256 = h := by
  cases hm : level.mNextCurr.isMerging with
  | true =>
    unfold BucketLevel.prepare at hp
    rw [hm] at hp
    cases hp
  | false =>
    rw [BucketLevel.prepare_eq level currLedger snap shadows hm] at hp
    cases hp
    simp only [levelHashes, FutureBucket.getHashes, Bool.false_eq_true, if_false, List.append_nil,
      List.mem_cons, List.mem_map] at hh
    rcases hh with rfl | rfl | rfl | rfl | hh
    · simp
    · simp
    · split_ifs
      · exact Or.inl rfl
      · exact Or.inr (Or.inl rfl)
    · simp
    · exact Or.inr (Or.inr (Or.inr (Or.inr hh)))

theorem wp_prepare (hg : Going sha256 m₀ m) (hi : i < kNumLevels) {snap : Bucket E K}
    (hsnap : m.HasFile (snap.getHash sha256))
    (hshadows : ∀ b ∈ shadows, m₀.HasFile (b.getHash sha256)) :
    wp (prepare sha256 currLedger i snap shadows) (fun _ m' => Going sha256 m₀ m')
      (fun _ m' => Safe sha256 m₀ m') m := by
  unfold prepare
  rw [wp_bind, wp_get, wp_bind, wp_ofExcept]
  refine ⟨fun level' hp => wp_startMerge hg fun h hh => ?_, fun _ _ => hg.toSafe⟩
  have hlevel := hg.level hi
  rcases mem_levelHashes_prepare hp hh with rfl | rfl | rfl | rfl | ⟨b, hb, rfl⟩
  · exact hasFile_zero
  · exact hlevel _ (by simp [levelHashes])
  · exact hlevel _ (by simp [levelHashes])
  · exact hsnap
  · exact hg.grown _ (hshadows b hb)

/-! ## Adding a batch -/

theorem wp_spill (hg : Going sha256 m₀ m) (hi : i < kNumLevels)
    (hshadows : ∀ b ∈ shadows, m₀.HasFile (b.getHash sha256)) :
    wp (spill sha256 currLedger shadows i) (fun _ m' => Going sha256 m₀ m')
      (fun _ m' => Safe sha256 m₀ m') m := by
  have hlevel := hg.level (i := i - 1) (by omega)
  have hcurr := hlevel _ (List.mem_cons_self ..)
  unfold spill
  rw [wp_bind, wp_get, wp_bind]
  have hsnapped : ∀ h ∈ levelHashes sha256 (m.mergeComplete (i - 1))
      (m.mBucketList.mLevels (i - 1)).snap.1, m.HasFile h := by
    intro h hh
    simp only [levelHashes, BucketLevel.snap, List.mem_cons, getHash_empty] at hh
    rcases hh with rfl | rfl | hh
    · exact hasFile_zero
    · exact hcurr
    · exact hlevel h (List.mem_cons_of_mem _ (List.mem_cons_of_mem _ hh))
  have hset := hg.setLevel (i := i - 1) hsnapped fun _ _ => rfl
  refine wp_mono (wp_self _ _) (fun _ m₁ h₁ => ?_) fun _ _ h => by cases h
  cases h₁
  rw [wp_bind]
  -- the spilled bucket still has its file when level `i` has been committed
  have hafter : Going sha256 _ _ := ⟨Safe.refl hset.ok, hset.used⟩
  refine wp_mono (wp_commit hafter hi) (fun _ m₂ h₂ => ?_) fun _ _ h => hset.toSafe.trans h
  exact wp_prepare ⟨hset.toSafe.trans h₂.toSafe, h₂.used⟩ hi (h₂.grown _ hcurr) hshadows

theorem wp_spillLoop (hg : Going sha256 m₀ m) {n : ℕ} (hn : n < kNumLevels)
    (hshadows : ∀ b ∈ shadows, m₀.HasFile (b.getHash sha256)) :
    wp (spillLoop sha256 currLedger n shadows)
      (fun shadows' m' => Going sha256 m₀ m' ∧ ∀ b ∈ shadows', m₀.HasFile (b.getHash sha256))
      (fun _ m' => Safe sha256 m₀ m') m := by
  induction n generalizing shadows m with
  | zero => exact ⟨hg, hshadows⟩
  | succ n ih =>
    have hdrop : ∀ b ∈ shadows.dropLast.dropLast, m₀.HasFile (b.getHash sha256) := fun b hb =>
      hshadows b (List.dropLast_subset _ (List.dropLast_subset _ hb))
    unfold spillLoop
    simp only [wp_bind, wp_require, wp_runIf]
    refine ⟨fun _ => ⟨fun _ => ?_, fun _ => ih hg (by omega) hdrop⟩, fun _ => hg.toSafe⟩
    exact wp_mono (wp_spill hg hn hdrop) (fun _ m₁ h₁ => ih h₁ (by omega) hdrop) fun _ _ h => h

theorem wp_fresh (hok : Ok sha256 m) (batch : Batch E K) :
    wp (fresh sha256 batch) (fun b m' => Aside sha256 m m' ∧ m'.HasFile (b.getHash sha256))
      (fun _ m' => Safe sha256 m m') m := by
  unfold fresh
  simp only [wp_bind, wp_deref]
  refine ⟨fun live _ => ⟨fun dead _ => ?_, fun _ => Safe.refl hok⟩, fun _ => Safe.refl hok⟩
  refine wp_mono (wp_adoptFileAsBucket hok live) (fun _ m₁ h₁ => ?_) fun _ _ h => h
  refine wp_mono (wp_adoptFileAsBucket h₁.1.ok dead) (fun _ m₂ h₂ => ?_) fun _ _ h => h
  have haside := h₁.1.trans h₂.1
  refine ⟨fun out _ => ?_, fun _ => haside.toSafe⟩
  exact wp_mono (wp_adoptFileAsBucket haside.ok out)
    (fun b m₃ h₃ => ⟨haside.trans h₃.1, by rw [h₃.2.1]; exact h₃.2.2⟩) fun _ _ h => h

/-- **A batch.** No file is removed, and the list has its files again. -/
theorem addBatch_spec (hok : Ok sha256 m) (hused : ∀ h, Uses sha256 m h → m.HasFile h)
    (batch : Batch E K) :
    wp (addBatch sha256 currLedger batch) (fun _ m' => Going sha256 m m')
      (fun _ m' => Safe sha256 m m') m := by
  have hg : Going sha256 m m := ⟨Safe.refl hok, hused⟩
  have hbuckets : ∀ b ∈ m.mBucketList.buckets, m.HasFile (b.getHash sha256) := by
    intro b hb
    obtain ⟨i, hi, hb⟩ := List.mem_flatMap.mp hb
    refine hg.level (List.mem_range.mp hi) _ ?_
    simp only [List.mem_cons, List.not_mem_nil, or_false] at hb
    rcases hb with rfl | rfl
    · simp [levelHashes]
    · simp [levelHashes]
  unfold addBatch
  simp only [wp_bind, wp_get, wp_require]
  refine ⟨fun _ => ⟨fun _ => ?_, fun _ => hg.toSafe⟩, fun _ => hg.toSafe⟩
  refine wp_mono (wp_spillLoop hg (by decide) fun b hb =>
    hbuckets b (List.dropLast_subset _ (List.dropLast_subset _ hb)))
    (fun shadows m₁ h₁ => ?_) fun _ _ h => h
  obtain ⟨hg₁, hshadows⟩ := h₁
  refine ⟨fun _ => ?_, fun _ => hg₁.toSafe⟩
  refine wp_mono (wp_fresh hg₁.ok batch) (fun snap m₂ h₂ => ?_) fun _ _ h => hg₁.toSafe.trans h
  refine wp_mono (wp_prepare (hg₁.aside h₂.1) (by decide) h₂.2 hshadows) (fun _ m₃ h₃ => ?_)
    fun _ _ h => h
  exact wp_commit h₃ (by decide)

end Levels

/-! ## Starting again -/

section Assume

variable {i : ℕ} {has : HistoryArchiveState} {keep : ℕ → Bool}

theorem getHashes_load (keep : Bool) (next : SavedFuture) :
    (FutureBucket.load keep next : FutureBucket E K).getHashes sha256 = next.getHashes := by
  cases next <;> rfl

theorem output_load (keep : Bool) (next : SavedFuture) :
    (FutureBucket.load keep next : FutureBucket E K).output? = none := by
  cases next <;> rfl

theorem mem_allBuckets (hi : i < kNumLevels) {h : Hash}
    (hh : h ∈ (has.currentBuckets i).curr :: (has.currentBuckets i).snap ::
      (has.currentBuckets i).next.getHashes) : h ∈ has.allBuckets :=
  List.mem_flatMap.mpr ⟨i, List.mem_range.mpr hi, hh⟩

/-- An output that is not being merged is known by its hash. -/
theorem output_mem_getHashes {next : FutureBucket E K} {b : Bucket E K}
    (hb : next.output? = some b) (hm : next.isMerging = false) :
    b.getHash sha256 ∈ next.getHashes sha256 := by
  cases next with
  | FB_LIVE_OUTPUT output =>
    cases hb
    simp [FutureBucket.getHashes]
  | FB_LIVE_INPUTS _ _ _ _ => cases hm
  | FB_CLEAR => cases hb
  | FB_HASH_OUTPUT _ => cases hb
  | FB_HASH_INPUTS _ _ _ _ => cases hb

theorem wp_fetch (hok : Ok sha256 m) {h : Hash} (hf : m.HasFile h) :
    wp (fetch h) (fun b m' => Aside sha256 m m' ∧ b.getHash sha256 = h) (fun _ _ => False) m := by
  unfold fetch
  rw [wp_bind]
  refine wp_mono (wp_getBucketByHash hok h) (fun r m' hr => ?_) fun _ _ h => h
  obtain ⟨hfind, hstill⟩ := hr
  rw [wp_deref]
  exact ⟨fun b hb => ⟨hstill.toAside, (find_some hok (hfind.symm.trans hb)).1⟩,
    fun hn => find_none (hfind.symm.trans hn) hf⟩

/-- A merge that is made live refers to the same buckets, and is running unless its output is
known. The buckets are fetched, whatever `I` that keeps. -/
theorem wp_makeLive {I : BucketManager E K → Prop} {E' : AssumeError → BucketManager E K → Prop}
    {next : FutureBucket E K} (hh : next.hasHashes = true)
    (hfetch : ∀ h ∈ next.getHashes sha256, ∀ m, I m →
      wp (fetch h) (fun b m' => I m' ∧ b.getHash sha256 = h) E' m) (hI : I m) :
    wp (makeLive next) (fun next' m' => I m' ∧
      next'.getHashes sha256 = next.getHashes sha256 ∧
      (next'.isMerging = true ∨ ∃ o, next = .FB_HASH_OUTPUT o)) E' m := by
  cases next with
  | FB_HASH_OUTPUT o =>
    simp only [makeLive, wp_bind]
    refine wp_mono (hfetch o (by simp [FutureBucket.getHashes]) m hI) (fun b m' hb => ?_)
      fun _ _ h => h
    exact ⟨hb.1, by simp [FutureBucket.getHashes, hb.2], Or.inr ⟨o, rfl⟩⟩
  | FB_HASH_INPUTS c s sh k =>
    simp only [makeLive, wp_bind]
    refine wp_mono (hfetch c (by simp [FutureBucket.getHashes]) m hI) (fun curr m₁ h₁ => ?_)
      fun _ _ h => h
    refine wp_mono (hfetch s (by simp [FutureBucket.getHashes]) m₁ h₁.1) (fun snap m₂ h₂ => ?_)
      fun _ _ h => h
    refine wp_mono (wp_mapM (I := I) (R := fun h b => b.getHash sha256 = h)
      (fun h hh => hfetch h (by simp [FutureBucket.getHashes, hh])) h₂.1)
      (fun shadows m₃ h₃ => ?_) fun _ _ h => h
    have hshadows : shadows.map (·.getHash sha256) = sh := by
      rw [← List.forall₂_eq_eq_eq, List.forall₂_map_left_iff]
      exact h₃.2.flip
    refine ⟨h₃.1, ?_, Or.inl rfl⟩
    simp only [FutureBucket.getHashes, h₁.2, h₂.2, hshadows]
  | FB_CLEAR => cases hh
  | FB_LIVE_OUTPUT _ => cases hh
  | FB_LIVE_INPUTS _ _ _ _ => cases hh

/-- The buckets of a merge are there. -/
theorem wp_makeLive_files (hok : Ok sha256 m) {next : FutureBucket E K}
    (hh : next.hasHashes = true) (hf : ∀ h ∈ next.getHashes sha256, m.HasFile h) :
    wp (makeLive next)
      (fun next' m' => Aside sha256 m m' ∧ next'.getHashes sha256 = next.getHashes sha256)
      (fun _ _ => False) m := by
  refine wp_mono (wp_makeLive hh (I := fun m' => Aside sha256 m m') (fun h hh m' h' => ?_)
    (Aside.refl hok)) (fun _ _ h' => ⟨h'.1, h'.2.1⟩) fun _ _ h => h
  exact wp_mono (wp_fetch h'.ok (h'.grown h (hf h hh)))
    (fun b m'' h'' => ⟨h'.trans h''.1, h''.2⟩) fun _ _ h => h

theorem wp_assumeLevel (hg : Going sha256 m₀ m) (hi : i < kNumLevels)
    (hhas : ∀ h ∈ has.allBuckets, m₀.HasFile h) :
    wp (assumeLevel sha256 has keep i) (fun _ m' => Going sha256 m₀ m') (fun _ _ => False) m := by
  have hfile : ∀ h ∈ (has.currentBuckets i).curr :: (has.currentBuckets i).snap ::
      (has.currentBuckets i).next.getHashes, m₀.HasFile h :=
    fun h hh => hhas h (mem_allBuckets hi hh)
  unfold assumeLevel
  simp only [wp_bind, wp_deref, wp_get]
  refine wp_mono (wp_getBucketByHash hg.ok _) (fun curr? m₁ h₁ => ?_) fun _ _ h => h
  obtain ⟨hcurr, hstill₁⟩ := h₁
  have hg₁ := hg.aside hstill₁.toAside
  refine wp_mono (wp_getBucketByHash hg₁.ok _) (fun snap? m₂ h₂ => ?_) fun _ _ h => h
  obtain ⟨hsnap, hstill₂⟩ := h₂
  have hg₂ := hg₁.aside hstill₂.toAside
  refine ⟨fun curr hc => ⟨fun snap hs => ?_, fun hn => ?_⟩, fun hn => ?_⟩
  · obtain ⟨hceq, -⟩ := find_some hg.ok (hcurr.symm.trans hc)
    obtain ⟨hseq, -⟩ := find_some hg₁.ok (hsnap.symm.trans hs)
    refine wp_mono (wp_setCurr hg₂ hi (by rw [hceq]; exact hg₂.grown _ (hfile _ (by simp))))
      (fun _ m₃ h₃ => ?_) fun _ _ h => h
    refine wp_mono (wp_setSnap h₃ hi (by rw [hseq]; exact h₃.grown _ (hfile _ (by simp))))
      (fun _ m₄ h₄ => ?_) fun _ _ h => h
    refine wp_setLevel h₄ fun h hh => ?_
    have hlevel := h₄.level hi
    simp only [levelHashes, getHashes_load, output_load, Option.toList_none, List.map_nil, ite_self,
      List.append_nil, List.mem_cons] at hh
    rcases hh with rfl | rfl | hh
    · exact hlevel _ (by simp [levelHashes])
    · exact hlevel _ (by simp [levelHashes])
    · exact h₄.grown h (hfile h (by simp [hh]))
  · exact find_none (hsnap.symm.trans hn) (hg₁.grown _ (hfile _ (by simp)))
  · exact find_none (hcurr.symm.trans hn) (hg.grown _ (hfile _ (by simp)))

theorem wp_restartMerge (hg : Going sha256 m₀ m) (hi : i < kNumLevels) :
    wp (restartMerge sha256 i) (fun _ m' => Going sha256 m₀ m') (fun _ _ => False) m := by
  have hlevel := hg.level hi
  unfold restartMerge
  simp only [wp_bind, wp_get, wp_runIf, Bool.and_eq_true]
  refine ⟨fun hhash => ?_, fun _ => hg⟩
  refine wp_mono (wp_makeLive_files hg.ok hhash.1 fun h hh => hlevel h (by simp [levelHashes, hh]))
    (fun next m₁ h₁ => ?_) fun _ _ h => h
  have hg₁ := hg.aside h₁.1
  have hsame : ∀ h, h = (m.mBucketList.mLevels i).mCurr.getHash sha256 ∨
      h = (m.mBucketList.mLevels i).mSnap.getHash sha256 ∨ h ∈ next.getHashes sha256 →
        m₁.HasFile h := by
    intro h hh
    rw [h₁.2] at hh
    refine h₁.1.grown h (hlevel h ?_)
    simp only [levelHashes, List.mem_cons, List.mem_append]
    tauto
  rw [wp_ite]
  refine ⟨fun _ => wp_startMerge hg₁ fun h hh => hsame h ?_,
    fun hm => wp_setLevel hg₁ fun h hh => hsame h ?_⟩
  · simpa [levelHashes] using hh
  · simp only [levelHashes, List.mem_cons, List.mem_append] at hh
    rcases hh with rfl | rfl | hh | hh
    · simp
    · simp
    · exact Or.inr (Or.inr hh)
    · split_ifs at hh with hc
      · obtain ⟨b, hb, rfl⟩ := List.mem_map.mp hh
        rw [Option.mem_toList] at hb
        exact Or.inr (Or.inr (output_mem_getHashes hb (by simpa using hm)))
      · cases hh

/-- **A restart.** A state whose files are there is assumed, and no file is removed. -/
theorem assumeState_spec (hok : Ok sha256 m) (hused : ∀ h, Uses sha256 m h → m.HasFile h)
    (hhas : ∀ h ∈ has.allBuckets, m.HasFile h) :
    wp (assumeState sha256 has keep) (fun _ m' => Going sha256 m m') (fun _ _ => False) m := by
  unfold assumeState
  rw [wp_bind]
  refine wp_mono (wp_forM (I := fun m' => Going sha256 m m')
    (fun i hi m' h' => wp_assumeLevel h' (List.mem_range.mp hi) hhas) ⟨Safe.refl hok, hused⟩)
    (fun _ m₁ h₁ => ?_) fun _ _ h => h
  exact wp_forM (I := fun m' => Going sha256 m m')
    (fun i hi m' h' => wp_restartMerge h' (List.mem_range.mp hi)) h₁

theorem makeSnapshotLive_spec (hok : Ok sha256 m) (hhas : ∀ h ∈ has.allBuckets, m.HasFile h) :
    wp (makeSnapshotLive sha256 has) (fun _ m' => Aside sha256 m m') (fun _ _ => False) m := by
  refine wp_forM (I := fun m' => Aside sha256 m m') (fun i hi m₁ h₁ => ?_) (Aside.refl hok)
  simp only [wp_bind, wp_runIf, Bool.and_eq_true]
  refine ⟨fun hhash => ?_, fun _ => h₁⟩
  refine wp_mono (wp_makeLive_files h₁.ok hhash.1 fun h hh => ?_) (fun next m₂ h₂ => ?_)
    fun _ _ h => h
  · rw [getHashes_load] at hh
    exact h₁.grown h (hhas h (mem_allBuckets (List.mem_range.mp hi) (by simp [hh])))
  · refine ⟨fun _ => ?_, fun _ => h₁.trans h₂.1⟩
    exact wp_mono (wp_retainInputs h₂.1.ok next) (fun _ m₃ h₃ => (h₁.trans h₂.1).trans h₃.toAside)
      fun _ _ h => h

end Assume

/-! ## Merges that complete -/

theorem completeMerge_spec (hok : Ok sha256 m) (hused : ∀ h, Uses sha256 m h → m.HasFile h)
    (i : ℕ) :
    wp (completeMerge sha256 i)
      (fun _ m' => Going sha256 m m' ∧ ∀ h, Uses sha256 m h → Uses sha256 m' h)
      (fun _ m' => Safe sha256 m m') m := by
  have hg : Going sha256 m m := ⟨Safe.refl hok, hused⟩
  unfold completeMerge
  simp only [wp_bind, wp_get, wp_runIf, wp_deref]
  refine ⟨fun _ => ⟨fun b hb => ?_, fun _ => hg.toSafe⟩, fun _ => ⟨hg, fun _ hu => hu⟩⟩
  refine wp_mono (wp_adoptFileAsBucket hok b) (fun _ m₁ h₁ => ?_) fun _ _ h => h
  obtain ⟨haside, -, hfile⟩ := h₁
  have hg₁ := hg.aside haside
  rw [wp_modify]
  have hcases : ∀ j, Function.update m₁.mergeComplete i true j = m₁.mergeComplete j ∨
      j = i ∧ Function.update m₁.mergeComplete i true j = true := by
    intro j
    by_cases hj : j = i
    · exact Or.inr ⟨hj, by simp [hj]⟩
    · exact Or.inl (Function.update_of_ne hj _ _)
  refine ⟨⟨⟨⟨hg₁.ok.named, hg₁.ok.backed⟩, hg₁.grown⟩, fun h hu => ?_⟩, fun h hu => ?_⟩
  · obtain ⟨j, hj, hh⟩ := hu
    rcases hcases j with heq | ⟨rfl, heq⟩
    · simp only [heq] at hh
      exact hg₁.used h ⟨j, hj, hh⟩
    · -- the output that is used now has been adopted
      have hlevel := hg₁.level hj
      simp only [levelHashes, heq, if_true, haside.list, hb, Option.toList_some, List.map_cons,
        List.map_nil, List.mem_cons, List.mem_append, List.not_mem_nil, or_false] at hh hlevel
      rcases hh with hh | hh | hh | rfl
      · exact hlevel h (Or.inl hh)
      · exact hlevel h (Or.inr (Or.inl hh))
      · exact hlevel h (Or.inr (Or.inr (Or.inl hh)))
      · exact hfile
  · obtain ⟨j, hj, hh⟩ := (haside.uses h).mpr hu
    refine ⟨j, hj, ?_⟩
    rcases hcases j with heq | ⟨rfl, heq⟩
    · simp only [heq]
      exact hh
    · simp only [levelHashes, heq, if_true, List.mem_cons, List.mem_append] at hh ⊢
      rcases hh with hh | hh | hh | hh
      · exact Or.inl hh
      · exact Or.inr (Or.inl hh)
      · exact Or.inr (Or.inr (Or.inl hh))
      · split_ifs at hh
        · exact Or.inr (Or.inr (Or.inr hh))
        · cases hh

/-! ## Forgetting -/

theorem kept_iff {pub : List HistoryArchiveState} {held : Hash → Bool} {h : Hash} :
    m.kept sha256 pub held h = true ↔
      Uses sha256 m h ∨ (∃ has ∈ pub, h ∈ has.allBuckets) ∨ held h = true := by
  rw [kept, Bool.or_eq_true, Bool.or_eq_true, decide_eq_true_eq, decide_eq_true_eq, mem_referenced,
    or_assoc]

/-- **What is not forgotten.** -/
theorem forgetUnreferencedBuckets_spec (hok : Ok sha256 m) (pub : List HistoryArchiveState)
    (held : Hash → Bool) :
    Ok sha256 (m.forgetUnreferencedBuckets sha256 pub held) ∧
    (∀ h, (m.forgetUnreferencedBuckets sha256 pub held).mSharedBuckets h ≠ some false) ∧
    ∀ h, Uses sha256 m h ∨ (∃ has ∈ pub, h ∈ has.allBuckets) → m.HasFile h →
      (m.forgetUnreferencedBuckets sha256 pub held).HasFile h := by
  refine ⟨⟨fun h b hb => ?_, fun h hs => ?_⟩, fun h => ?_, fun h hk hf => ?_⟩
  · simp only [forgetUnreferencedBuckets] at hb
    split_ifs at hb
    exact hok.named h b hb
  · simp only [forgetUnreferencedBuckets] at hs ⊢
    split_ifs at hs with hk
    · simp only [hk, not_true_eq_false, and_false, if_false]
      exact hok.backed h (by simpa using hs)
    · simp at hs
  · simp only [forgetUnreferencedBuckets]
    split_ifs
    · cases m.mSharedBuckets h <;> simp
    · simp
  · have hkept : m.kept sha256 pub held h = true := kept_iff.mpr (or_assoc.mp (Or.inl hk))
    simpa [forgetUnreferencedBuckets, HasFile, hkept] using hf

/-- The objects that are destroyed with a process take their files with them, unless they retain
them. -/
theorem hasFile_shutdown (h : Hash) :
    m.shutdown.HasFile h ↔ m.HasFile h ∧ (h = 0 ∨ m.mSharedBuckets h ≠ some false) := by
  by_cases hs : m.mSharedBuckets h = some false
  · by_cases hz : h = 0
    · simp [HasFile, hz]
    · simp [HasFile, shutdown, hs, hz]
  · simp [HasFile, shutdown, hs]

theorem ok_shutdown (hok : Ok sha256 m) : Ok sha256 m.shutdown := by
  refine ⟨fun h b hb => ?_, fun h hs => by cases hs⟩
  simp only [shutdown] at hb
  split_ifs at hb
  exact hok.named h b hb

theorem ok_crash (hok : Ok sha256 m) : Ok sha256 m.crash :=
  ⟨hok.named, fun h hs => by cases hs⟩

/-- A list without buckets uses none. -/
theorem hasFile_of_uses_start {dir : Hash → Option (Bucket E K)} {h : Hash}
    (hu : Uses sha256 ({ bucketDir := dir } : BucketManager E K) h) : h = 0 := by
  obtain ⟨i, -, hh⟩ := hu
  simpa [levelHashes, FutureBucket.getHashes] using hh

/-! ## What is written -/

/-- What a state says was used by the list it was saved from. -/
theorem uses_of_saveState {ready : ℕ → Bool} (hready : ∀ i, ready i = true → m.mergeComplete i = true)
    {h : Hash} (hh : h ∈ (m.mBucketList.saveState (·.getHash sha256) ready).allBuckets) :
    Uses sha256 m h := by
  obtain ⟨i, hi, hh⟩ := List.mem_flatMap.mp hh
  refine ⟨i, List.mem_range.mp hi, ?_⟩
  have hcurr : ((m.mBucketList.resolveReady ready).mLevels i).mCurr =
      (m.mBucketList.mLevels i).mCurr := resolveReady_curr m.mBucketList ready i
  have hsnap : ((m.mBucketList.resolveReady ready).mLevels i).mSnap =
      (m.mBucketList.mLevels i).mSnap := resolveReady_snap m.mBucketList ready i
  have hsave : ∀ next : FutureBucket E K,
      (next.save (·.getHash sha256)).getHashes = next.getHashes sha256 := by
    intro next
    cases next <;> rfl
  simp only [BucketList.saveState, hcurr, hsnap, hsave, List.mem_cons] at hh
  simp only [levelHashes, List.mem_cons, List.mem_append]
  rcases hh with hh | hh | hh
  · exact Or.inl hh
  · exact Or.inr (Or.inl hh)
  · refine Or.inr (Or.inr ?_)
    cases hr : ready i with
    | false =>
      have hsame : (m.mBucketList.resolveReady ready).mLevels i = m.mBucketList.mLevels i := by
        simp [BucketList.resolveReady, hr]
      rw [hsame] at hh
      exact Or.inl hh
    | true =>
      rcases resolveReady_next m.mBucketList ready i with hnext | ⟨M, hM, hnext⟩
      · rw [hnext] at hh
        exact Or.inl hh
      · rw [hnext] at hh
        refine Or.inr ?_
        rw [if_pos (hready i hr), hM]
        exact hh

end BucketManager

end SmartCore.Buckets
