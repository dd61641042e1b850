import SmartCore.Buckets.Refinement

/-!
# Saving a bucket list and starting again from it

After every ledger a node writes a `HistoryArchiveState`: the hashes of the buckets of every level,
and of the merge that is under way either the hash of the output or those of the inputs. When the
node starts again, `assumeState` fetches the buckets by their hashes and restarts the merges.

`mKeepDeadEntries` is not written, and `load` leaves it as it happens to be. So the restarted merges
are the ones that were running iff each finds the right value there: `restart_harmless_iff`. If none
was running, then everything goes on as if the node had never stopped.
-/

namespace SmartCore.Buckets

variable {K E : Type} [Keyed E K] [LinearOrder K]

/-! ## What is written -/

/-- A `FutureBucket` as it is written. -/
inductive SavedFuture where
  | FB_CLEAR
  | FB_HASH_OUTPUT (output : Hash)
  | FB_HASH_INPUTS (curr snap : Hash) (shadow : List Hash)
deriving DecidableEq, Repr

structure HistoryStateBucket where
  curr : Hash
  next : SavedFuture
  snap : Hash
deriving DecidableEq, Repr

/-- The levels below `kNumLevels`. -/
structure HistoryArchiveState where
  currentBuckets : ℕ → HistoryStateBucket

/-- What goes wrong when a state is assumed. -/
inductive AssumeError where
  | missingBucketFiles
  | makeLive
  | missingInput
deriving DecidableEq, Repr

section Save

variable (hash : Bucket E K → Hash)

def FutureBucket.save : FutureBucket E K → SavedFuture
  | FB_LIVE_INPUTS curr snap shadows _ =>
    .FB_HASH_INPUTS (hash curr) (hash snap) (shadows.map hash)
  | FB_HASH_INPUTS currHash snapHash shadowHashes _ =>
    .FB_HASH_INPUTS currHash snapHash shadowHashes
  | FB_LIVE_OUTPUT output => .FB_HASH_OUTPUT (hash output)
  | FB_HASH_OUTPUT outputHash => .FB_HASH_OUTPUT outputHash
  | FB_CLEAR => .FB_CLEAR

/-- The state of a list. The copies of the merges `ready` are found complete, and are resolved
before they are written. -/
def BucketList.saveState (ready : ℕ → Bool) (bl : BucketList E K) : HistoryArchiveState where
  currentBuckets i :=
    let level := (bl.resolveReady ready).mLevels i
    ⟨hash level.mCurr, level.mNextCurr.save hash, hash level.mSnap⟩

/-- `getHash` of a list; `sha256` hashes what is concatenated. -/
def BucketList.getHash (sha256 : List Hash → Hash) (bl : BucketList E K) : Hash :=
  sha256 ((List.range kNumLevels).map fun i =>
    sha256 [hash (bl.mLevels i).mCurr, hash (bl.mLevels i).mSnap])

end Save

/-! ## What is read -/

section Load

variable (getBucketByHash : Hash → Option (Bucket E K))

/-- `load` does not assign `mKeepDeadEntries`. -/
def FutureBucket.load (mKeepDeadEntries : Bool) : SavedFuture → FutureBucket E K
  | .FB_HASH_INPUTS curr snap shadow => FB_HASH_INPUTS curr snap shadow mKeepDeadEntries
  | .FB_HASH_OUTPUT output => FB_HASH_OUTPUT output
  | .FB_CLEAR => FB_CLEAR

/-- A bucket that has to be there. -/
def fetch (h : Hash) : Except AssumeError (Bucket E K) :=
  match getBucketByHash h with
  | some b => pure b
  | none => throw .missingInput

def FutureBucket.makeLive : FutureBucket E K → Except AssumeError (FutureBucket E K)
  | FB_HASH_OUTPUT outputHash => do
    let output ← fetch getBucketByHash outputHash
    pure (FB_LIVE_OUTPUT output)
  | FB_HASH_INPUTS currHash snapHash shadowHashes mKeepDeadEntries => do
    let curr ← fetch getBucketByHash currHash
    let snap ← fetch getBucketByHash snapHash
    let shadows ← shadowHashes.mapM (fetch getBucketByHash)
    pure (FB_LIVE_INPUTS curr snap shadows mKeepDeadEntries)
  | _ => throw .makeLive

/-- Restart the merge of a level. -/
def BucketLevel.restartMerge (level : BucketLevel E K) : Except AssumeError (BucketLevel E K) :=
  if level.mNextCurr.hasHashes && !level.mNextCurr.isLive then do
    let next ← level.mNextCurr.makeLive getBucketByHash
    pure { level with mNextCurr := next }
  else pure level

/-- Give a level the state that was saved for it. -/
def BucketLevel.assume (b : HistoryStateBucket) (mKeepDeadEntries : Bool) (level : BucketLevel E K) :
    Except AssumeError (BucketLevel E K) :=
  match getBucketByHash b.curr, getBucketByHash b.snap with
  | some curr, some snap =>
    pure { level.setCurr curr with
      mSnap := snap, mNextCurr := FutureBucket.load mKeepDeadEntries b.next }
  | _, _ => throw .missingBucketFiles

/-- A loop over the levels. -/
def BucketList.forLevels (f : ℕ → BucketLevel E K → Except AssumeError (BucketLevel E K))
    (bl : BucketList E K) : Except AssumeError (BucketList E K) :=
  (List.range kNumLevels).foldlM (fun bl i => do
    let level ← f i (bl.mLevels i)
    pure (bl.setLevel i level)) bl

def BucketList.restartMerges (bl : BucketList E K) : Except AssumeError (BucketList E K) :=
  bl.forLevels fun _ level => level.restartMerge getBucketByHash

/-- `assumeState` by a new process. `mKeepDeadEntries i` is what the field of level `i` happens to
be. -/
def assumeState (has : HistoryArchiveState) (mKeepDeadEntries : ℕ → Bool) :
    Except AssumeError (BucketList E K) := do
  let bl ← ({} : BucketList E K).forLevels fun i level =>
    level.assume getBucketByHash (has.currentBuckets i) (mKeepDeadEntries i)
  bl.restartMerges getBucketByHash

end Load

/-! ## What is there again -/

/-- A merge with another flag. -/
def FutureBucket.setKeepDead (keepDeadEntries : Bool) : FutureBucket E K → FutureBucket E K
  | FB_LIVE_INPUTS curr snap shadows _ => FB_LIVE_INPUTS curr snap shadows keepDeadEntries
  | fb => fb

/-- The buckets a `FutureBucket` refers to. -/
def FutureBucket.buckets : FutureBucket E K → List (Bucket E K)
  | FB_LIVE_INPUTS curr snap shadows _ => curr :: snap :: shadows
  | FB_LIVE_OUTPUT output => [output]
  | _ => []

/-- The buckets a list refers to. They are retained. -/
def BucketList.referenced (bl : BucketList E K) : List (Bucket E K) :=
  (List.range kNumLevels).flatMap fun i =>
    (bl.mLevels i).mCurr :: (bl.mLevels i).mSnap :: (bl.mLevels i).mNextCurr.buckets

section Assume

variable {hash : Bucket E K → Hash} {getBucketByHash : Hash → Option (Bucket E K)}

theorem mapM_fetch {l : List (Bucket E K)}
    (h : ∀ b ∈ l, getBucketByHash (hash b) = some b) :
    (l.map hash).mapM (fetch getBucketByHash) = .ok l := by
  induction l with
  | nil => rfl
  | cons b l ih =>
    have hb : fetch getBucketByHash (hash b) = .ok b := by
      unfold fetch
      rw [h b (by simp)]
      rfl
    rw [List.map_cons, List.mapM_cons, hb, ih fun b' hb' => h b' (by simp [hb'])]
    rfl

/-- What is not written of a merge is only the flag. -/
theorem restartMerge_load {level : BucketLevel E K} {next : FutureBucket E K} {keep : Bool}
    (hh : next.hasHashes = false)
    (h : ∀ b ∈ next.buckets, getBucketByHash (hash b) = some b)
    (hl : level.mNextCurr = FutureBucket.load keep (next.save hash)) :
    level.restartMerge getBucketByHash =
      .ok { level with mNextCurr := next.setKeepDead keep } := by
  cases next with
  | FB_CLEAR =>
    cases level
    simp only at hl
    subst hl
    rfl
  | FB_HASH_OUTPUT _ => cases hh
  | FB_HASH_INPUTS _ _ _ _ => cases hh
  | FB_LIVE_OUTPUT output =>
    have ho := h output (by simp [FutureBucket.buckets])
    simp only [BucketLevel.restartMerge, hl, FutureBucket.save, FutureBucket.load,
      FutureBucket.hasHashes, FutureBucket.isLive, FutureBucket.makeLive, fetch, ho]
    rfl
  | FB_LIVE_INPUTS curr snap shadows _ =>
    have hc := h curr (by simp [FutureBucket.buckets])
    have hs := h snap (by simp [FutureBucket.buckets])
    have hsh := mapM_fetch (l := shadows) fun b hb =>
      h b (by simp [FutureBucket.buckets, hb])
    simp only [BucketLevel.restartMerge, hl, FutureBucket.save, FutureBucket.load,
      FutureBucket.hasHashes, FutureBucket.isLive, FutureBucket.makeLive, hsh]
    simp only [fetch, hc, hs]
    rfl

/-- A loop over the levels whose steps succeed. -/
theorem forLevels_eq {f : ℕ → BucketLevel E K → Except AssumeError (BucketLevel E K)}
    {g : ℕ → BucketLevel E K} {bl : BucketList E K}
    (h : ∀ i < kNumLevels, f i (bl.mLevels i) = .ok (g i)) :
    bl.forLevels f = .ok ⟨fun i => if i < kNumLevels then g i else bl.mLevels i⟩ := by
  have hloop : ∀ n ≤ kNumLevels, (List.range n).foldlM (fun bl i => do
      let level ← f i (bl.mLevels i)
      pure (bl.setLevel i level)) bl =
        .ok ⟨fun i => if i < n then g i else bl.mLevels i⟩ := by
    intro n
    induction n with
    | zero => intro _; rfl
    | succ n ih =>
      intro hn
      rw [List.range_succ, List.foldlM_append, ih (by omega)]
      let bl₁ : BucketList E K := ⟨fun i => if i < n then g i else bl.mLevels i⟩
      have hstep : f n (bl₁.mLevels n) = .ok (g n) := by
        simpa [bl₁] using h n (by omega)
      simp only [List.foldlM_cons, List.foldlM_nil, bind, Except.bind, bl₁] at hstep ⊢
      rw [hstep]
      refine congrArg (fun levels => Except.ok (BucketList.mk levels)) (funext fun i => ?_)
      by_cases hi : i = n
      · simp [hi]
      · have hlt : i < n ↔ i < n + 1 := by omega
        simp [hi, hlt]
  exact hloop kNumLevels le_rfl

/-- **What a restart gives back:** every level as it was saved, with another flag. -/
theorem assumeState_saveState {bl : BucketList E K} {ready : ℕ → Bool} (keep : ℕ → Bool)
    (hlevel : ∀ i, (bl.mLevels i).mLevel = i)
    (hlive : ∀ i < kNumLevels, ((bl.resolveReady ready).mLevels i).mNextCurr.hasHashes = false)
    (href : ∀ b ∈ (bl.resolveReady ready).referenced, getBucketByHash (hash b) = some b) :
    assumeState getBucketByHash (bl.saveState hash ready) keep = .ok ⟨fun i =>
      if i < kNumLevels then
        { (bl.resolveReady ready).mLevels i with
          mNextCurr := ((bl.resolveReady ready).mLevels i).mNextCurr.setKeepDead (keep i) }
      else { mLevel := i }⟩ := by
  have hmem : ∀ i < kNumLevels, ∀ b ∈ (bl.resolveReady ready).curr i ::
      (bl.resolveReady ready).snap i :: ((bl.resolveReady ready).mLevels i).mNextCurr.buckets,
      getBucketByHash (hash b) = some b := fun i hi b hb =>
    href b (List.mem_flatMap.mpr ⟨i, List.mem_range.mpr hi, hb⟩)
  have hassume : ({} : BucketList E K).forLevels (fun i level =>
      level.assume getBucketByHash ((bl.saveState hash ready).currentBuckets i) (keep i)) =
        .ok ⟨fun i => if i < kNumLevels then
          { (bl.resolveReady ready).mLevels i with
            mNextCurr := FutureBucket.load (keep i)
              (((bl.resolveReady ready).mLevels i).mNextCurr.save hash) }
          else { mLevel := i }⟩ := by
    refine forLevels_eq fun i hi => ?_
    have hc := hmem i hi _ (List.mem_cons_self ..)
    have hs := hmem i hi _ (List.mem_cons_of_mem _ (List.mem_cons_self ..))
    simp only [BucketList.curr, BucketList.snap] at hc hs
    simp only [BucketLevel.assume, BucketList.saveState, hc, hs, BucketLevel.setCurr,
      resolveReady_mLevel, hlevel]
    rfl
  unfold assumeState BucketList.restartMerges
  simp only [hassume, bind, Except.bind]
  -- the merges are restarted level by level
  refine (forLevels_eq (g := fun i => { (bl.resolveReady ready).mLevels i with
    mNextCurr := ((bl.resolveReady ready).mLevels i).mNextCurr.setKeepDead (keep i) })
    fun i hi => ?_).trans ?_
  · simp only [if_pos hi]
    exact restartMerge_load (hlive i hi) (fun b hb => hmem i hi b (by simp [hb])) rfl
  · refine congrArg (fun levels => Except.ok (BucketList.mk levels)) (funext fun i => ?_)
    by_cases hi : i < kNumLevels
    · simp only [if_pos hi]
    · simp only [if_neg hi]

end Assume

/-! ## Going on -/

/-- Two levels that differ at most in whether a merge is known to be complete. -/
structure LevelSame (level level' : BucketLevel E K) : Prop where
  index : level'.mLevel = level.mLevel
  curr : level'.mCurr = level.mCurr
  snap : level'.mSnap = level.mSnap
  next : level'.mNextCurr = level.mNextCurr ∨
    ∃ M, level'.mNextCurr.output? = some M ∧ level.mNextCurr.output? = some M

def Same (bl bl' : BucketList E K) : Prop :=
  ∀ i < kNumLevels, LevelSame (bl.mLevels i) (bl'.mLevels i)

theorem LevelSame.refl (level : BucketLevel E K) : LevelSame level level :=
  ⟨rfl, rfl, rfl, Or.inl rfl⟩

theorem LevelSame.eq_of_clear {level level' : BucketLevel E K} (h : LevelSame level level')
    (hc : level.mNextCurr = .FB_CLEAR) : level' = level := by
  have hnext : level'.mNextCurr = level.mNextCurr := by
    rcases h.next with heq | ⟨M, -, hM⟩
    · exact heq
    · rw [hc] at hM
      cases hM
  obtain ⟨hl, hcurr, hs, -⟩ := h
  cases level
  cases level'
  simp only at hl hcurr hs hnext
  rw [hl, hcurr, hs, hnext]

/-- Once committed there is no difference. -/
theorem LevelSame.commit {level level' : BucketLevel E K} (h : LevelSame level level') :
    level'.commit = level.commit := by
  obtain ⟨hl, hcurr, hs, heq | ⟨M, hM', hM⟩⟩ := h
  · cases level
    cases level'
    simp only at hl hcurr hs heq
    rw [hl, hcurr, hs, heq]
  · rw [BucketLevel.commit_output hM', BucketLevel.commit_output hM]
    simp only [BucketLevel.setCurr, hl, hs]

section Same

variable {bl bl' : BucketList E K}

theorem Same.setLevel (h : Same bl bl') (i : ℕ) {level level' : BucketLevel E K}
    (hl : LevelSame level level') : Same (bl.setLevel i level) (bl'.setLevel i level') := by
  intro j hj
  by_cases hji : j = i
  · subst hji
    simpa [BucketList.setLevel] using hl
  · simpa [BucketList.setLevel, hji] using h j hj

theorem Same.buckets (h : Same bl bl') : bl'.buckets = bl.buckets := by
  unfold BucketList.buckets
  rw [List.flatMap_congr]
  intro i hi
  have hl := h i (List.mem_range.mp hi)
  rw [hl.curr, hl.snap]

theorem Same.getHash (h : Same bl bl') (hash : Bucket E K → Hash) (sha256 : List Hash → Hash) :
    bl'.getHash hash sha256 = bl.getHash hash sha256 := by
  unfold BucketList.getHash
  rw [List.map_congr_left]
  intro i hi
  have hl := h i (List.mem_range.mp hi)
  rw [hl.curr, hl.snap]

theorem Same.output (h : Same bl bl') {i : ℕ} (hi : i < kNumLevels) :
    (bl'.mLevels i).mNextCurr.output? = (bl.mLevels i).mNextCurr.output? := by
  rcases (h i hi).next with heq | ⟨M, hM', hM⟩
  · rw [heq]
  · rw [hM', hM]

theorem Same.resolveReady (h : Same bl bl') (ready ready' : ℕ → Bool) :
    Same (bl.resolveReady ready) (bl'.resolveReady ready') := by
  intro i hi
  have hl := h i hi
  refine ⟨by simpa using hl.index, ?_, ?_, ?_⟩
  · have hcurr : bl'.curr i = bl.curr i := hl.curr
    rw [← resolveReady_curr bl' ready', ← resolveReady_curr bl ready] at hcurr
    exact hcurr
  · have hsnap : bl'.snap i = bl.snap i := hl.snap
    rw [← resolveReady_snap bl' ready', ← resolveReady_snap bl ready] at hsnap
    exact hsnap
  · rcases resolveReady_next bl' ready' i with h₁ | ⟨M', hM', h₁⟩
    · rcases resolveReady_next bl ready i with h₂ | ⟨M, hM, h₂⟩
      · rw [h₁, h₂]
        exact hl.next
      · rw [h₁, h₂, h.output hi]
        exact Or.inr ⟨M, hM, rfl⟩
    · rcases resolveReady_next bl ready i with h₂ | ⟨M, hM, h₂⟩
      · rw [h₁, h₂]
        exact Or.inr ⟨M', rfl, (h.output hi).symm.trans hM'⟩
      · rw [h.output hi, hM] at hM'
        rw [h₁, h₂, Option.some.inj hM']
        exact Or.inl rfl

theorem spill_bind (bl : BucketList E K) (ledger : UInt32) (shadows : List (Bucket E K)) (i : ℕ) :
    bl.spill ledger shadows (i + 1) =
      ((bl.mLevels (i + 1)).commit >>= fun level => level.prepare ledger (bl.curr i) shadows) >>=
        fun level => pure ((bl.setLevel i (bl.mLevels i).snap.1).setLevel (i + 1) level) := by
  have hsucc : (bl.setLevel i (bl.mLevels i).snap.1).mLevels (i + 1) = bl.mLevels (i + 1) := by
    simp [BucketList.setLevel]
  unfold BucketList.spill
  simp only [Nat.add_sub_cancel, hsucc, bind_assoc]
  rfl

theorem Same.spill (h : Same bl bl') {ledger : UInt32} {shadows : List (Bucket E K)} {i : ℕ}
    (hi : i + 1 < kNumLevels) {bl₁ : BucketList E K}
    (hok : bl.spill ledger shadows (i + 1) = .ok bl₁) :
    ∃ bl₁', bl'.spill ledger shadows (i + 1) = .ok bl₁' ∧ Same bl₁ bl₁' := by
  have hl := h i (by omega)
  have hcurr : bl'.curr i = bl.curr i := hl.curr
  rw [spill_bind] at hok
  rw [spill_bind, hcurr, (h (i + 1) hi).commit]
  generalize ((bl.mLevels (i + 1)).commit >>= fun level =>
    level.prepare ledger (bl.curr i) shadows) = r at hok ⊢
  cases r with
  | error e => cases hok
  | ok level =>
    cases hok
    have hsnap : LevelSame (bl.mLevels i).snap.1 (bl'.mLevels i).snap.1 :=
      ⟨hl.index, rfl, hl.curr, hl.next⟩
    exact ⟨_, rfl, (h.setLevel i hsnap).setLevel (i + 1) (LevelSame.refl level)⟩

theorem Same.spillLoop (h : Same bl bl') {ledger : UInt32} {n : ℕ} (hn : n < kNumLevels)
    {shadows shadows₁ : List (Bucket E K)} {bl₁ : BucketList E K}
    (hok : BucketList.spillLoop ledger n shadows bl = .ok (shadows₁, bl₁)) :
    ∃ bl₁', BucketList.spillLoop ledger n shadows bl' = .ok (shadows₁, bl₁') ∧ Same bl₁ bl₁' := by
  induction n generalizing shadows bl bl' with
  | zero =>
    cases hok
    exact ⟨bl', rfl, h⟩
  | succ n ih =>
    unfold BucketList.spillLoop at hok ⊢
    generalize assertThat (decide (2 ≤ shadows.length)) .shadows = a at hok ⊢
    cases a with
    | error e => cases hok
    | ok u =>
      simp only [bind, Except.bind] at hok ⊢
      split at hok
      · rename_i hspill
        rw [if_pos hspill]
        cases hs : bl.spill ledger shadows.dropLast.dropLast (n + 1) with
        | error e =>
          rw [hs] at hok
          cases hok
        | ok bl₂ =>
          rw [hs] at hok
          obtain ⟨bl₂', hs', h₂⟩ := h.spill hn hs
          rw [hs']
          exact ih h₂ (by omega) hok
      · rename_i hspill
        rw [if_neg hspill]
        exact ih h (by omega) hok

/-- **One ledger** does the same to both. -/
theorem Same.addBatch (h : Same bl bl') {ledger : UInt32} {batch : Batch E K}
    (hinv : Inv (ledger.toNat - 1) bl) (hL : 0 < ledger.toNat) (hbatch : batch.Distinct) :
    ∃ bl₁ bl₁', bl.addBatch ledger batch = .ok bl₁ ∧ bl'.addBatch ledger batch = .ok bl₁' ∧
      Inv ledger.toNat bl₁ ∧ Same bl₁ bl₁' := by
  obtain ⟨bl₁, hadd, hinv₁, -⟩ := addBatch_spec hinv hL hbatch
  obtain ⟨bl₂, hloop, hmid⟩ := spillLoop_spec hinv hL le_rfl (Mid.start hinv)
  obtain ⟨bl₂', hloop', h₂⟩ := h.spillLoop (by decide) hloop
  have hzero : bl₂'.mLevels 0 = bl₂.mLevels 0 :=
    (h₂ 0 (by decide)).eq_of_clear (hmid.nextCurr.trans hinv.fresh)
  have hadd' := hadd
  rw [addBatch_eq hL hloop] at hadd'
  rw [← h.buckets] at hloop'
  rw [addBatch_eq hL hloop', hzero]
  cases hfresh : Bucket.fresh batch.liveEntries batch.deadEntries with
  | none =>
    rw [hfresh] at hadd'
    cases hadd'
  | some fresh =>
    simp only [hfresh, ← bind_assoc] at hadd' ⊢
    generalize ((bl₂.mLevels 0).prepare ledger fresh [] >>= BucketLevel.commit) = r at hadd' ⊢
    cases r with
    | error e => cases hadd'
    | ok level =>
      cases hadd'
      exact ⟨_, _, hadd, rfl, hinv₁, h₂.setLevel 0 (LevelSame.refl level)⟩

/-- **All later ledgers** do the same to both, whenever the merges complete. -/
theorem Same.addBatches (h : Same bl bl') {closed : ℕ} (hinv : Inv closed bl)
    (ready ready' : ℕ → ℕ → Bool) {batches : List (Batch E K)}
    (hlen : closed + batches.length < 2 ^ 32) (hdistinct : ∀ batch ∈ batches, batch.Distinct) :
    ∃ bl₁ bl₁', addBatches ready closed batches bl = .ok bl₁ ∧
      addBatches ready' closed batches bl' = .ok bl₁' ∧ Same bl₁ bl₁' := by
  induction batches generalizing bl bl' closed with
  | nil => exact ⟨bl, bl', rfl, rfl, h⟩
  | cons batch batches ih =>
    rw [List.length_cons] at hlen
    have hnat : (UInt32.ofNat (closed + 1)).toNat = closed + 1 :=
      UInt32.toNat_ofNat_of_lt' (by show _ < 2 ^ 32; omega)
    obtain ⟨bl₁, bl₁', hadd, hadd', hinv₁, h₁⟩ := h.addBatch
      (by rw [hnat]; exact hinv) (by omega) (hdistinct batch (by simp))
    rw [hnat] at hinv₁
    obtain ⟨bl₂, bl₂', hrun, hrun', h₂⟩ := ih (h₁.resolveReady (ready closed) (ready' closed))
      (hinv₁.resolveReady _) (by omega) fun b hb => hdistinct b (by simp [hb])
    refine ⟨bl₂, bl₂', ?_, ?_, h₂⟩
    · rw [← hrun]
      simp only [Buckets.addBatches, List.zipIdx_cons, List.foldlM_cons, hadd]
      rfl
    · rw [← hrun']
      simp only [Buckets.addBatches, List.zipIdx_cons, List.foldlM_cons, hadd']
      rfl

end Same

/-! ## A restart that changes nothing -/

/-- A list with a restarted copy of it after ledger `closed`: the merges that run again are the ones
that ran, and after all later ledgers the buckets, what the merges give, and the hash are the same. -/
structure Harmless (hash : Bucket E K → Hash) (sha256 : List Hash → Hash) (closed : ℕ)
    (bl bl' : BucketList E K) : Prop where
  merges : ∀ i < kNumLevels, (bl'.mLevels i).mNextCurr.isMerging = true →
    (bl'.mLevels i).mNextCurr = (bl.mLevels i).mNextCurr
  later : ∀ (ready ready' : ℕ → ℕ → Bool) (batches : List (Batch E K)),
    closed + batches.length < 2 ^ 32 → (∀ batch ∈ batches, batch.Distinct) →
      ∃ bl₁ bl₁', addBatches ready closed batches bl = .ok bl₁ ∧
        addBatches ready' closed batches bl' = .ok bl₁' ∧
        bl₁'.buckets = bl₁.buckets ∧
        (∀ i < kNumLevels,
          (bl₁'.mLevels i).mNextCurr.output? = (bl₁.mLevels i).mNextCurr.output?) ∧
        bl₁'.getHash hash sha256 = bl₁.getHash hash sha256

/-- The merges of a list are complete, or are running with the flag of their level. -/
theorem Inv.merge_cases {L : ℕ} {bl : BucketList E K} (h : Inv L bl) {i : ℕ} (hi : i < kNumLevels) :
    (bl.mLevels i).mNextCurr = .FB_CLEAR ∨ (∃ M, (bl.mLevels i).mNextCurr = .FB_LIVE_OUTPUT M) ∨
      ∃ curr snap shadows, (bl.mLevels i).mNextCurr =
        .FB_LIVE_INPUTS curr snap shadows (decide (i < kNumLevels - 1)) := by
  cases i with
  | zero => exact Or.inl h.fresh
  | succ j =>
    rcases h.next j (by unfold kNumLevels at hi; omega) with ⟨-, hc, -⟩ | ⟨-, shadows, M, -, hm, -⟩
    · exact Or.inl hc
    · rcases hm with hin | hout
      · exact Or.inr (Or.inr ⟨_, _, _, hin⟩)
      · exact Or.inr (Or.inl ⟨M, hout⟩)

theorem same_resolveReady (bl : BucketList E K) (ready : ℕ → Bool) :
    Same bl (bl.resolveReady ready) := by
  intro i _
  refine ⟨by simp, resolveReady_curr bl ready i, resolveReady_snap bl ready i, ?_⟩
  rcases resolveReady_next bl ready i with h | ⟨M, hM, h⟩
  · exact Or.inl h
  · rw [h]
    exact Or.inr ⟨M, rfl, hM⟩

/-- **A restart changes nothing iff every merge that was running finds its flag.** -/
theorem restart_harmless_iff (hash : Bucket E K → Hash) (sha256 : List Hash → Hash)
    (getBucketByHash : Hash → Option (Bucket E K)) (ready : ℕ → ℕ → Bool)
    (batches : List (Batch E K)) (hlen : batches.length < 2 ^ 32)
    (hdistinct : ∀ batch ∈ batches, batch.Distinct) (complete mKeepDeadEntries : ℕ → Bool)
    (bl : BucketList E K) (hrun : runBatches ready batches = .ok bl)
    (href : ∀ b ∈ (bl.resolveReady complete).referenced, getBucketByHash (hash b) = some b) :
    ∃ bl', assumeState getBucketByHash (bl.saveState hash complete) mKeepDeadEntries = .ok bl' ∧
      (Harmless hash sha256 batches.length bl bl' ↔
        ∀ i < kNumLevels, ((bl.resolveReady complete).mLevels i).mNextCurr.isMerging = true →
          mKeepDeadEntries i = decide (i < kNumLevels - 1)) := by
  obtain ⟨bl₀, hrun₀, hinv, -⟩ := runBatches_spec ready hlen hdistinct
  obtain rfl : bl₀ = bl := Except.ok.inj (hrun₀.symm.trans hrun)
  have hinv' := hinv.resolveReady complete
  have hassume := assumeState_saveState mKeepDeadEntries hinv.level
    (fun i hi => by
      rcases hinv'.merge_cases hi with h | ⟨M, h⟩ | ⟨_, _, _, h⟩ <;> rw [h] <;> rfl) href
  refine ⟨_, hassume, ?_, ?_⟩
  · intro h i hi hmerging
    -- the flag that was loaded is the one of the running merge
    rcases hinv'.merge_cases hi with hc | ⟨M, hout⟩ | ⟨curr, snap, shadows, hin⟩
    · rw [hc] at hmerging
      cases hmerging
    · rw [hout] at hmerging
      cases hmerging
    · have heq := h.merges i hi
      simp only [if_pos hi, hin, FutureBucket.setKeepDead] at heq
      have hnext := heq rfl
      rcases resolveReady_next bl₀ complete i with hsame | ⟨M, -, hcomp⟩
      · rw [← hsame, hin] at hnext
        injection hnext
      · rw [hin] at hcomp
        cases hcomp
  · intro hflag
    have hlevels : ∀ i < kNumLevels,
        { (bl₀.resolveReady complete).mLevels i with
          mNextCurr := ((bl₀.resolveReady complete).mLevels i).mNextCurr.setKeepDead
            (mKeepDeadEntries i) } = (bl₀.resolveReady complete).mLevels i := by
      intro i hi
      have hsame : ((bl₀.resolveReady complete).mLevels i).mNextCurr.setKeepDead
          (mKeepDeadEntries i) = ((bl₀.resolveReady complete).mLevels i).mNextCurr := by
        rcases hinv'.merge_cases hi with hc | ⟨M, hout⟩ | ⟨curr, snap, shadows, hin⟩
        · rw [hc]
          rfl
        · rw [hout]
          rfl
        · rw [hflag i hi (by rw [hin]; rfl), hin]
          rfl
      rw [hsame]
    have hbl : Same bl₀ ⟨fun i => if i < kNumLevels then
        { (bl₀.resolveReady complete).mLevels i with
          mNextCurr := ((bl₀.resolveReady complete).mLevels i).mNextCurr.setKeepDead
            (mKeepDeadEntries i) } else { mLevel := i }⟩ := by
      intro i hi
      simp only [if_pos hi, hlevels i hi]
      exact same_resolveReady bl₀ complete i hi
    refine ⟨fun i hi hmerging => ?_, fun r r' later hlen' hdistinct' => ?_⟩
    · simp only [if_pos hi, hlevels i hi] at hmerging ⊢
      rcases resolveReady_next bl₀ complete i with hsame | ⟨M, -, hcomp⟩
      · exact hsame
      · rw [hcomp] at hmerging
        cases hmerging
    · obtain ⟨bl₁, bl₁', h₁, h₁', hs⟩ := hbl.addBatches hinv r r' hlen' hdistinct'
      exact ⟨bl₁, bl₁', h₁, h₁', hs.buckets, fun i hi => hs.output hi, hs.getHash hash sha256⟩

section Example

open Ledger

/-- The buckets of the example, as `getBucketByHash` finds them. -/
def exampleBuckets : List (Bucket LedgerEntry LedgerKey) :=
  [{}, ⟨[.LIVEENTRY ⟨1, .account { accountID := 7 }⟩], List.pairwise_singleton _ _⟩,
    ⟨[.DEADENTRY (.account 7)], List.pairwise_singleton _ _⟩]

/-- An account is created in the first ledger, and merged away in the second. The fourth starts a
merge of the dead entry into level 1. -/
def mergeOfDead : List (Batch LedgerEntry LedgerKey) := createAndMerge ++ [⟨[], []⟩, ⟨[], []⟩]

/-- The node after these ledgers, restarted with a flag `mKeepDeadEntries` that happens to be
`keep`, then two more ledgers; without and with the restart. -/
def restartAfterFour (keep : Bool) :
    Option (BucketList LedgerEntry LedgerKey × BucketList LedgerEntry LedgerKey) := do
  let bl ← (runBatches (fun _ _ => false) mergeOfDead).toOption
  let bl' ← (assumeState (fun h => exampleBuckets[h]?)
    (bl.saveState exampleBuckets.idxOf fun _ => false) fun _ => keep).toOption
  let bl₁ ← (addBatches (fun _ _ => false) 4 [⟨[], []⟩, ⟨[], []⟩] bl).toOption
  let bl₁' ← (addBatches (fun _ _ => false) 4 [⟨[], []⟩, ⟨[], []⟩] bl').toOption
  pure (bl₁, bl₁')

example : (restartAfterFour true).map (fun r => decide (r.1.buckets = r.2.buckets)) =
    some true := by decide +kernel

theorem toOption_eq_some {ε α : Type} {x : Except ε α} {a : α} (h : x.toOption = some a) :
    x = .ok a := by
  cases x with
  | error e => cases h
  | ok b => exact congrArg _ (Option.some.inj h)

/-- The restarted node has lost the dead entry two ledgers later. -/
theorem restart_loses_dead : ∃ bl bl' bl₁ bl₁' : BucketList LedgerEntry LedgerKey,
    runBatches (fun _ _ => false) mergeOfDead = .ok bl ∧
    assumeState (fun h => exampleBuckets[h]?)
      (bl.saveState exampleBuckets.idxOf fun _ => false) (fun _ => false) = .ok bl' ∧
    addBatches (fun _ _ => false) 4 [⟨[], []⟩, ⟨[], []⟩] bl = .ok bl₁ ∧
    addBatches (fun _ _ => false) 4 [⟨[], []⟩, ⟨[], []⟩] bl' = .ok bl₁' ∧
    (bl₁.curr 1).entries = [.DEADENTRY (.account 7)] ∧ (bl₁'.curr 1).entries = [] := by
  have h : (restartAfterFour false).map (fun r => ((r.1.curr 1).entries, (r.2.curr 1).entries)) =
      some ([.DEADENTRY (.account 7)], []) := by decide +kernel
  obtain ⟨⟨bl₁, bl₁'⟩, hrun, hentries⟩ := Option.map_eq_some_iff.mp h
  simp only [restartAfterFour, bind, Option.bind_eq_some_iff, pure, Option.some.injEq,
    Prod.mk.injEq] at hrun
  obtain ⟨bl, h₁, bl', h₂, b₁, h₃, b₁', h₄, rfl, rfl⟩ := hrun
  obtain ⟨he, he'⟩ := Prod.mk.inj hentries
  exact ⟨bl, bl', b₁, b₁', toOption_eq_some h₁, toOption_eq_some h₂, toOption_eq_some h₃,
    toOption_eq_some h₄, he, he'⟩

/-- What the running merge refers to is there. -/
theorem referenced_mergeOfDead {bl : BucketList LedgerEntry LedgerKey}
    (h : runBatches (fun _ _ => false) mergeOfDead = .ok bl) :
    ∀ b ∈ (bl.resolveReady fun _ => false).referenced,
      exampleBuckets[exampleBuckets.idxOf b]? = some b := by
  have hall : (match runBatches (fun _ _ => false) mergeOfDead with
      | .ok bl => decide (∀ b ∈ (bl.resolveReady fun _ => false).referenced,
        exampleBuckets[exampleBuckets.idxOf b]? = some b)
      | .error _ => false) = true := by decide +kernel
  rw [h] at hall
  exact of_decide_eq_true hall

/-- Whether the restart after these four ledgers is harmless depends on the flag. -/
theorem restart_harmless_mergeOfDead : ∃ bl : BucketList LedgerEntry LedgerKey,
    runBatches (fun _ _ => false) mergeOfDead = .ok bl ∧
    ∃ bl', assumeState (fun h => exampleBuckets[h]?)
      (bl.saveState exampleBuckets.idxOf fun _ => false) (fun _ => true) = .ok bl' ∧
      (Harmless exampleBuckets.idxOf List.sum 4 bl bl' ↔
        ∀ i < kNumLevels, ((bl.resolveReady fun _ => false).mLevels i).mNextCurr.isMerging = true →
          true = decide (i < kNumLevels - 1)) := by
  have hlen : mergeOfDead.length < 2 ^ 32 := by decide
  obtain ⟨bl, hrun, -⟩ := runBatches_spec (fun _ _ => false) hlen (by decide)
  exact ⟨bl, hrun, restart_harmless_iff exampleBuckets.idxOf List.sum
    (fun h => exampleBuckets[h]?) (fun _ _ => false) mergeOfDead (by decide) (by decide)
    (fun _ => false) (fun _ => true) bl hrun (referenced_mergeOfDead hrun)⟩

end Example

end SmartCore.Buckets
