import SmartCore.Buckets.BucketManager

/-!
# The list of a bucket manager

What the manager does to its list is what is said about lists alone, as long as different buckets
have different hashes: then a bucket that is adopted is the one that is there already.

* `addBatch_refines`: a batch is added as by `BucketList.addBatch`, and
* `assumeState_refines`: a saved state is assumed as by `Buckets.assumeState`, which finds the
  buckets in the directory. For this nothing need be assumed of hashes.
-/

namespace SmartCore.Buckets.BucketManager

variable {K E : Type} [Keyed E K] [LinearOrder K] {ε : Type}

variable {sha256 : List (BucketEntry E K) → Hash} {m m' : BucketManager E K}

/-! ## Adding a batch -/

section Refines

variable {i : ℕ} {b : Bucket E K} {currLedger : UInt32}

theorem list_replace {E' : ε → BucketManager E K → Prop} (hok : Ok sha256 m) (old new : Hash)
    (i : ℕ) (level : BucketLevel E K) :
    wp (do setRetain old false; setLevel i level; setRetain new true)
      (fun _ m' => Ok sha256 m' ∧ m'.bucketDir = m.bucketDir ∧
        m'.mBucketList = m.mBucketList.setLevel i level) E' m := by
  rw [wp_bind]
  refine wp_mono (wp_setRetain hok old false) (fun _ m₁ h₁ => ?_) fun _ _ h => h
  rw [wp_bind, setLevel, wp_modify]
  have hok₂ : Ok sha256 { m₁ with mBucketList := m₁.mBucketList.setLevel i level } :=
    ⟨h₁.ok.named, h₁.ok.backed⟩
  refine wp_mono (wp_setRetain hok₂ new true) (fun _ m₂ h₂ => ⟨h₂.ok, ?_, ?_⟩) fun _ _ h => h
  · exact h₂.dir.trans h₁.dir
  · rw [h₂.list, h₁.list]

/-- Without collisions a bucket that is adopted is the one that is there. -/
theorem adopt_refines {E' : ε → BucketManager E K → Prop} (hinj : (Bucket.getHash sha256).Injective)
    (hok : Ok sha256 m) (b : Bucket E K) :
    wp (adoptFileAsBucket sha256 b) (fun b' m' => b' = b ∧ Aside sha256 m m') E' m :=
  wp_mono (wp_adoptFileAsBucket hok b) (fun _ _ h => ⟨hinj h.2.1, h.1⟩) fun _ _ h => h

theorem resolve_refines (hinj : (Bucket.getHash sha256).Injective) (hok : Ok sha256 m)
    (next : FutureBucket E K) :
    wp (resolve sha256 next) (fun b m' => Aside sha256 m m' ∧ ∃ fb, next.resolve = .ok (b, fb))
      (fun e _ => next.resolve = .error e) m := by
  unfold resolve
  rw [wp_bind, wp_ofExcept]
  refine ⟨fun r hr => ?_, fun e he => he⟩
  rw [wp_ite]
  refine ⟨fun _ => ?_, fun _ => ⟨Aside.refl hok, r.2, hr⟩⟩
  refine wp_mono (adopt_refines hinj hok r.1) (fun b' m' h => ⟨h.2, r.2, ?_⟩) fun _ _ h => h
  rw [h.1]
  exact hr

/-- The level and its list after `commit`. -/
theorem commit_refines (hinj : (Bucket.getHash sha256).Injective) (hok : Ok sha256 m) :
    wp (commit sha256 i)
      (fun _ m' => Ok sha256 m' ∧ ∃ level, (m.mBucketList.mLevels i).commit = .ok level ∧
        m'.mBucketList = m.mBucketList.setLevel i level)
      (fun e _ => (m.mBucketList.mLevels i).commit = .error e) m := by
  unfold commit BucketLevel.commit
  simp only [wp_bind, wp_get, wp_runIf, wp_require]
  constructor
  · intro hlive
    refine wp_mono (resolve_refines hinj hok _) (fun b m₁ h₁ => ?_) fun e _ h => ?_
    · obtain ⟨haside, fb, hres⟩ := h₁
      unfold setCurr
      rw [wp_bind, wp_get]
      refine wp_mono (list_replace haside.ok _ _ i _) (fun _ m₂ h₂ => ?_) fun _ _ h => h
      have hlist : m₂.mBucketList =
          m.mBucketList.setLevel i ((m.mBucketList.mLevels i).setCurr b) := by
        rw [h₂.2.2, haside.list]
      have hnext : (m₂.mBucketList.mLevels i).mNextCurr = .FB_CLEAR := by
        rw [hlist]
        simp [BucketList.setLevel, BucketLevel.setCurr]
      rw [hnext, if_pos hlive, hres]
      exact ⟨fun _ => ⟨h₂.1, _, rfl, hlist⟩, fun hm => by cases hm⟩
    · rw [if_pos hlive, h]
      rfl
  · intro hlive
    have hm : (m.mBucketList.mLevels i).mNextCurr.isMerging = false := by
      cases hn : (m.mBucketList.mLevels i).mNextCurr with
      | FB_LIVE_INPUTS _ _ _ _ =>
        rw [hn] at hlive
        exact absurd rfl hlive
      | FB_CLEAR => rfl
      | FB_HASH_OUTPUT _ => rfl
      | FB_HASH_INPUTS _ _ _ _ => rfl
      | FB_LIVE_OUTPUT _ => rfl
    rw [if_neg hlive, hm]
    refine ⟨fun _ => ⟨hok, m.mBucketList.mLevels i, ?_, ?_⟩, fun hf => by cases hf⟩
    · simp only [hm, Bool.not_false, assertThat_true, pure_bind]
      rfl
    · simp [BucketList.setLevel]

theorem prepare_refines (hok : Ok sha256 m) {snap : Bucket E K} {shadows : List (Bucket E K)} :
    wp (prepare sha256 currLedger i snap shadows)
      (fun _ m' => Ok sha256 m' ∧ ∃ level,
        (m.mBucketList.mLevels i).prepare currLedger snap shadows = .ok level ∧
        m'.mBucketList = m.mBucketList.setLevel i level)
      (fun e _ => (m.mBucketList.mLevels i).prepare currLedger snap shadows = .error e) m := by
  unfold prepare
  rw [wp_bind, wp_get, wp_bind, wp_ofExcept]
  refine ⟨fun level hlevel => ?_, fun e he => he⟩
  unfold startMerge
  rw [wp_bind, wp_modify]
  have hok₁ : Ok sha256 { m with
      mBucketList := m.mBucketList.setLevel i level
      mergeComplete := Function.update m.mergeComplete i false } := ⟨hok.named, hok.backed⟩
  exact wp_mono (wp_retainInputs hok₁ _) (fun _ m' h => ⟨h.ok, level, hlevel, h.list⟩)
    fun _ _ h => h

theorem spill_refines (hinj : (Bucket.getHash sha256).Injective) (hok : Ok sha256 m)
    {shadows : List (Bucket E K)} :
    wp (spill sha256 currLedger shadows i)
      (fun _ m' => Ok sha256 m' ∧
        m.mBucketList.spill currLedger shadows i = .ok m'.mBucketList)
      (fun e _ => m.mBucketList.spill currLedger shadows i = .error e) m := by
  unfold spill BucketList.spill
  rw [wp_bind, wp_get, wp_bind, setLevel, wp_modify, wp_bind]
  have hok₁ : Ok sha256 { m with
      mBucketList := m.mBucketList.setLevel (i - 1) (m.mBucketList.mLevels (i - 1)).snap.1 } :=
    ⟨hok.named, hok.backed⟩
  refine wp_mono (commit_refines hinj hok₁) (fun _ m₂ h₂ => ?_) fun e _ h => ?_
  · obtain ⟨hok₂, level, hcommit, hlist₂⟩ := h₂
    have hlevel : m₂.mBucketList.mLevels i = level := by
      rw [hlist₂]
      simp [BucketList.setLevel]
    refine wp_mono (prepare_refines hok₂) (fun _ m₃ h₃ => ?_) fun e _ h => ?_
    · obtain ⟨hok₃, level', hprepare, hlist₃⟩ := h₃
      rw [hlevel] at hprepare
      refine ⟨hok₃, ?_⟩
      simp only [hcommit, bind, Except.bind, hprepare, hlist₃, hlist₂]
      simp [BucketList.setLevel, pure, Except.pure]
    · rw [hlevel] at h
      simp only [hcommit, bind, Except.bind, h]
  · simp only [h, bind, Except.bind]

theorem spillLoop_refines (hinj : (Bucket.getHash sha256).Injective) (hok : Ok sha256 m) {n : ℕ}
    {shadows : List (Bucket E K)} :
    wp (spillLoop sha256 currLedger n shadows)
      (fun shadows' m' => Ok sha256 m' ∧
        BucketList.spillLoop currLedger n shadows m.mBucketList = .ok (shadows', m'.mBucketList))
      (fun e _ => BucketList.spillLoop currLedger n shadows m.mBucketList = .error e) m := by
  induction n generalizing shadows m with
  | zero => exact ⟨hok, rfl⟩
  | succ n ih =>
    unfold spillLoop BucketList.spillLoop
    simp only [wp_bind, wp_require, wp_runIf]
    refine ⟨fun hlen => ⟨fun hs => ?_, fun hs => ?_⟩, fun hlen => ?_⟩
    · rw [hlen, assertThat_true, if_pos hs]
      refine wp_mono (spill_refines hinj hok) (fun _ m₁ h₁ => ?_) fun e _ h => ?_
      · refine wp_mono (ih h₁.1) (fun shadows' m₂ h₂ => ⟨h₂.1, ?_⟩) fun e _ h => ?_
        · simp only [h₁.2, bind, Except.bind, pure, Except.pure]
          exact h₂.2
        · simp only [h₁.2, bind, Except.bind, pure, Except.pure]
          exact h
      · simp only [h, bind, Except.bind, pure, Except.pure]
    · rw [hlen, assertThat_true, if_neg hs]
      exact ih hok
    · rw [hlen]
      rfl

theorem fresh_refines (hinj : (Bucket.getHash sha256).Injective) (hok : Ok sha256 m)
    (batch : Batch E K) :
    wp (fresh sha256 batch)
      (fun b m' => Aside sha256 m m' ∧ Bucket.fresh batch.liveEntries batch.deadEntries = some b)
      (fun e _ => e = .mergeOrder ∧ Bucket.fresh batch.liveEntries batch.deadEntries = none) m := by
  unfold fresh Bucket.fresh
  simp only [wp_bind, wp_deref]
  refine ⟨fun live hlive => ⟨fun dead hdead => ?_, fun hnone => ⟨trivial, ?_⟩⟩,
    fun hnone => ⟨trivial, ?_⟩⟩
  · refine wp_mono (adopt_refines hinj hok live) (fun live' m₁ h₁ => ?_) fun _ _ h => h
    refine wp_mono (adopt_refines hinj h₁.2.ok dead) (fun dead' m₂ h₂ => ?_) fun _ _ h => h
    rw [h₁.1, h₂.1, hlive, hdead]
    refine ⟨fun out hout => ?_, fun hnone => ⟨trivial, hnone⟩⟩
    refine wp_mono (adopt_refines hinj h₂.2.ok out) (fun out' m₃ h₃ => ?_) fun _ _ h => h
    rw [h₃.1]
    exact ⟨(h₁.2.trans h₂.2).trans h₃.2, hout⟩
  · rw [hlive, hnone]
    rfl
  · rw [hnone]
    rfl

/-- The new bucket in the first level. -/
theorem firstLevel_refines (hinj : (Bucket.getHash sha256).Injective) (hok : Ok sha256 m)
    (snap : Bucket E K) (shadows : List (Bucket E K)) :
    wp (do prepare sha256 currLedger 0 snap shadows; commit sha256 0)
      (fun _ m' => (do
        let level ← (m.mBucketList.mLevels 0).prepare currLedger snap shadows
        let level ← level.commit
        pure (m.mBucketList.setLevel 0 level)) = Except.ok m'.mBucketList)
      (fun e _ => (do
        let level ← (m.mBucketList.mLevels 0).prepare currLedger snap shadows
        let level ← level.commit
        pure (m.mBucketList.setLevel 0 level)) = Except.error e) m := by
  rw [wp_bind]
  refine wp_mono (prepare_refines hok) (fun _ m₁ h₁ => ?_) fun e _ h => ?_
  · obtain ⟨hok₁, level, hprepare, hlist₁⟩ := h₁
    have hlevel : m₁.mBucketList.mLevels 0 = level := by
      rw [hlist₁]
      simp [BucketList.setLevel]
    refine wp_mono (commit_refines hinj hok₁) (fun _ m₂ h₂ => ?_) fun e _ h => ?_
    · obtain ⟨-, level', hcommit, hlist₂⟩ := h₂
      rw [hlevel] at hcommit
      simp only [hprepare, bind, Except.bind, hcommit, hlist₂, hlist₁]
      simp [BucketList.setLevel, pure, Except.pure]
    · rw [hlevel] at h
      simp only [hprepare, bind, Except.bind, h]
  · simp only [h, bind, Except.bind]

/-- **Without collisions of hashes the list becomes what `BucketList.addBatch` says.** -/
theorem addBatch_refines (hinj : (Bucket.getHash sha256).Injective) (hok : Ok sha256 m)
    (batch : Batch E K) :
    wp (addBatch sha256 currLedger batch)
      (fun _ m' => m.mBucketList.addBatch currLedger batch = .ok m'.mBucketList)
      (fun e _ => m.mBucketList.addBatch currLedger batch = .error e) m := by
  unfold addBatch BucketList.addBatch
  rw [wp_bind, wp_require]
  refine ⟨fun hpos => ?_, fun hpos => by rw [hpos]; rfl⟩
  rw [hpos, assertThat_true, pure_bind, wp_bind, wp_get, wp_bind, wp_require]
  refine ⟨fun hlen => ?_, fun hlen => by simp only [hlen]; rfl⟩
  simp only [hlen, assertThat_true, pure_bind]
  rw [wp_bind]
  refine wp_mono (spillLoop_refines hinj hok) (fun shadows m₁ h₁ => ?_) fun e _ h => by rw [h]; rfl
  obtain ⟨hok₁, hloop⟩ := h₁
  rw [hloop, wp_bind, wp_require]
  refine ⟨fun hempty => ?_, fun hleft => ?_⟩
  · rw [wp_bind]
    refine wp_mono (fresh_refines hinj hok₁ batch) (fun b m₂ h₂ => ?_) fun e _ h => ?_
    · obtain ⟨haside, hfresh⟩ := h₂
      rw [← haside.list]
      refine wp_mono (firstLevel_refines hinj haside.ok b shadows) (fun _ m₃ h₃ => ?_)
        fun e _ h => ?_
      · rw [← h₃, hfresh]
        simp only [bind, Except.bind, hempty, assertThat_true, pure, Except.pure]
      · rw [← h, hfresh]
        simp only [bind, Except.bind, hempty, assertThat_true, pure, Except.pure]
    · rw [h.1, h.2]
      simp only [bind, Except.bind, hempty, assertThat_true, pure, Except.pure]
      rfl
  · simp only [bind, Except.bind, hleft]
    rfl

end Refines

/-! ## Starting again -/

section Assume

variable {i : ℕ} {has : HistoryArchiveState} {keep : ℕ → Bool}

/-- The directory and the list that a step leaves, if the level is as `level` says. -/
def LeftBy (sha256 : List (BucketEntry E K) → Hash) (i : ℕ)
    (level : Except AssumeError (BucketLevel E K)) (m m' : BucketManager E K) : Prop :=
  Ok sha256 m' ∧ m'.bucketDir = m.bucketDir ∧
    ∃ l, level = .ok l ∧ m'.mBucketList = m.mBucketList.setLevel i l

theorem find_congr (h : m'.bucketDir = m.bucketDir) : m'.find = m.find := by
  funext x
  unfold find
  rw [h]

theorem fetch_refines (hok : Ok sha256 m) (h : Hash) :
    wp (fetch h) (fun b m' => Still sha256 m m' ∧ Buckets.fetch m.find h = .ok b)
      (fun e _ => Buckets.fetch m.find h = .error e) m := by
  unfold fetch Buckets.fetch
  rw [wp_bind]
  refine wp_mono (wp_getBucketByHash hok h) (fun r m' hr => ?_) fun _ _ h => h
  obtain ⟨hfind, hstill⟩ := hr
  rw [wp_deref, ← hfind]
  refine ⟨fun b hb => ⟨hstill, ?_⟩, fun hn => ?_⟩
  · rw [hb]
    rfl
  · rw [hn]
    rfl

theorem fetchAll_refines (hok : Ok sha256 m) (l : List Hash) :
    wp (l.mapM fetch) (fun bs m' => Still sha256 m m' ∧ l.mapM (Buckets.fetch m.find) = .ok bs)
      (fun e _ => l.mapM (Buckets.fetch m.find) = .error e) m := by
  induction l generalizing m with
  | nil => exact ⟨Still.refl hok, rfl⟩
  | cons h l ih =>
    rw [List.mapM_cons, List.mapM_cons, wp_bind]
    refine wp_mono (fetch_refines hok h) (fun b m₁ h₁ => ?_) fun e _ he => ?_
    · obtain ⟨hstill, hfetch⟩ := h₁
      rw [wp_bind]
      have hih := ih hstill.ok
      rw [find_congr hstill.dir] at hih
      refine wp_mono hih (fun bs m₂ h₂ => ⟨hstill.trans h₂.1, ?_⟩) fun e _ he => ?_
      · simp only [hfetch, bind, Except.bind, h₂.2]
        rfl
      · simp only [hfetch, bind, Except.bind, he]
    · simp only [he, bind, Except.bind]

theorem makeLive_refines (hok : Ok sha256 m) (next : FutureBucket E K) :
    wp (makeLive next) (fun next' m' => Still sha256 m m' ∧ next.makeLive m.find = .ok next')
      (fun e _ => next.makeLive m.find = .error e) m := by
  cases next with
  | FB_HASH_OUTPUT o =>
    unfold makeLive FutureBucket.makeLive
    rw [wp_bind]
    refine wp_mono (fetch_refines hok o) (fun b m₁ h₁ => ⟨h₁.1, ?_⟩) fun e _ he => ?_
    · simp only [h₁.2, bind, Except.bind]
      rfl
    · simp only [he, bind, Except.bind]
  | FB_HASH_INPUTS c s sh k =>
    unfold makeLive FutureBucket.makeLive
    rw [wp_bind]
    refine wp_mono (fetch_refines hok c) (fun curr m₁ h₁ => ?_) fun e _ he => ?_
    · rw [wp_bind]
      have hsnap := fetch_refines h₁.1.ok s
      rw [find_congr h₁.1.dir] at hsnap
      refine wp_mono hsnap (fun snap m₂ h₂ => ?_) fun e _ he => ?_
      · have hstill := h₁.1.trans h₂.1
        rw [wp_bind]
        have hall := fetchAll_refines hstill.ok sh
        rw [find_congr hstill.dir] at hall
        refine wp_mono hall (fun shadows m₃ h₃ => ⟨hstill.trans h₃.1, ?_⟩) fun e _ he => ?_
        · simp only [h₁.2, h₂.2, h₃.2, bind, Except.bind]
          rfl
        · simp only [h₁.2, h₂.2, he, bind, Except.bind]
      · simp only [h₁.2, he, bind, Except.bind]
    · simp only [he, bind, Except.bind]
  | FB_CLEAR => rfl
  | FB_LIVE_OUTPUT _ => rfl
  | FB_LIVE_INPUTS _ _ _ _ => rfl

theorem assumeLevel_refines (hok : Ok sha256 m) :
    wp (assumeLevel sha256 has keep i)
      (fun _ m' => LeftBy sha256 i ((m.mBucketList.mLevels i).assume m.find (has.currentBuckets i)
        (keep i)) m m')
      (fun e _ => (m.mBucketList.mLevels i).assume m.find (has.currentBuckets i) (keep i) =
        .error e) m := by
  unfold assumeLevel BucketLevel.assume
  rw [wp_bind]
  refine wp_mono (wp_getBucketByHash hok _) (fun curr? m₁ h₁ => ?_) fun _ _ h => h
  obtain ⟨hcurr, hstill₁⟩ := h₁
  rw [wp_bind]
  refine wp_mono (wp_getBucketByHash hstill₁.ok _) (fun snap? m₂ h₂ => ?_) fun _ _ h => h
  obtain ⟨hsnap, hstill₂⟩ := h₂
  have hstill := hstill₁.trans hstill₂
  rw [find_congr hstill₁.dir] at hsnap
  rw [← hcurr, ← hsnap]
  cases curr? with
  | none => rfl
  | some curr =>
    cases snap? with
    | none => rfl
    | some snap =>
      simp only [wp_bind, wp_get, deref, wp_pure]
      unfold setCurr
      rw [wp_bind, wp_get]
      refine wp_mono (list_replace hstill.ok _ _ i _) (fun _ m₃ h₃ => ?_) fun _ _ h => h
      obtain ⟨hok₃, hdir₃, hlist₃⟩ := h₃
      unfold setSnap
      rw [wp_bind, wp_get]
      refine wp_mono (list_replace hok₃ _ _ i _) (fun _ m₄ h₄ => ?_) fun _ _ h => h
      obtain ⟨hok₄, hdir₄, hlist₄⟩ := h₄
      rw [setLevel, wp_modify]
      refine ⟨⟨hok₄.named, hok₄.backed⟩, (hdir₄.trans hdir₃).trans hstill.dir, _, rfl, ?_⟩
      simp only [hlist₄, hlist₃, hstill.list]
      simp [BucketList.setLevel, BucketLevel.setCurr]

theorem restartMerge_refines (hok : Ok sha256 m) :
    wp (restartMerge sha256 i)
      (fun _ m' => LeftBy sha256 i ((m.mBucketList.mLevels i).restartMerge m.find) m m')
      (fun e _ => (m.mBucketList.mLevels i).restartMerge m.find = .error e) m := by
  unfold restartMerge BucketLevel.restartMerge
  rw [wp_bind, wp_get, wp_runIf]
  refine ⟨fun hhash => ?_, fun hhash => ?_⟩
  · rw [if_pos hhash, wp_bind]
    refine wp_mono (makeLive_refines hok _) (fun next m₁ h₁ => ?_) fun e _ he => ?_
    · obtain ⟨hstill, hlive⟩ := h₁
      rw [hlive, wp_ite]
      constructor
      · intro _
        unfold startMerge
        rw [wp_bind, wp_modify]
        have hok₁ : Ok sha256 { m₁ with
            mBucketList := m₁.mBucketList.setLevel i { m.mBucketList.mLevels i with mNextCurr := next }
            mergeComplete := Function.update m₁.mergeComplete i false } :=
          ⟨hstill.ok.named, hstill.ok.backed⟩
        refine wp_mono (wp_retainInputs hok₁ _) (fun _ m₂ h₂ => ?_) fun _ _ h => h
        refine ⟨h₂.ok, h₂.dir.trans hstill.dir, _, rfl, ?_⟩
        rw [h₂.list, hstill.list]
      · intro _
        rw [setLevel, wp_modify]
        refine ⟨⟨hstill.ok.named, hstill.ok.backed⟩, hstill.dir, _, rfl, ?_⟩
        rw [hstill.list]
    · rw [he]
      rfl
  · rw [if_neg hhash]
    exact ⟨hok, rfl, _, rfl, by simp [BucketList.setLevel]⟩

/-- A loop over levels. -/
theorem forM_refines {f : ℕ → ManagerM E K AssumeError Unit}
    {g : ℕ → BucketLevel E K → Except AssumeError (BucketLevel E K)}
    (dir : Hash → Option (Bucket E K)) {l : List ℕ}
    (hf : ∀ i m, Ok sha256 m → m.bucketDir = dir →
      wp (f i) (fun _ m' => LeftBy sha256 i (g i (m.mBucketList.mLevels i)) m m')
        (fun e _ => g i (m.mBucketList.mLevels i) = .error e) m)
    (hok : Ok sha256 m) (hdir : m.bucketDir = dir) :
    wp (l.forM f)
      (fun _ m' => (Ok sha256 m' ∧ m'.bucketDir = dir) ∧ l.foldlM (fun bl i => do
        let level ← g i (bl.mLevels i)
        pure (bl.setLevel i level)) m.mBucketList = .ok m'.mBucketList)
      (fun e _ => l.foldlM (fun bl i => do
        let level ← g i (bl.mLevels i)
        pure (bl.setLevel i level)) m.mBucketList = .error e) m := by
  induction l generalizing m with
  | nil => exact ⟨⟨hok, hdir⟩, rfl⟩
  | cons i l ih =>
    show wp (f i >>= fun _ => l.forM f) _ _ m
    rw [wp_bind]
    refine wp_mono (hf i m hok hdir) (fun _ m₁ h₁ => ?_) fun e _ he => ?_
    · obtain ⟨hok₁, hdir₁, level, hlevel, hlist⟩ := h₁
      simp only [List.foldlM_cons, hlevel, bind, Except.bind, pure, Except.pure]
      rw [← hlist]
      exact ih hok₁ (hdir₁.trans hdir)
    · simp only [List.foldlM_cons, he, bind, Except.bind]

/-- **A restart gives the list that `Buckets.assumeState` says.** -/
theorem assumeState_refines (hok : Ok sha256 m) (hlist : m.mBucketList = {}) :
    wp (assumeState sha256 has keep)
      (fun _ m' => Buckets.assumeState m.find has keep = .ok m'.mBucketList)
      (fun e _ => Buckets.assumeState m.find has keep = .error e) m := by
  unfold assumeState Buckets.assumeState BucketList.restartMerges BucketList.forLevels
  rw [wp_bind]
  have hassume := forM_refines (l := List.range kNumLevels) m.bucketDir
    (f := assumeLevel sha256 has keep)
    (g := fun i level => level.assume m.find (has.currentBuckets i) (keep i))
    (fun i m₁ hok₁ hdir₁ => by
      rw [← find_congr hdir₁]
      exact assumeLevel_refines hok₁) hok rfl
  rw [hlist] at hassume
  refine wp_mono hassume (fun _ m₁ h₁ => ?_) fun e _ he => ?_
  · obtain ⟨⟨hok₁, hdir₁⟩, hloop⟩ := h₁
    have hrestart := forM_refines (l := List.range kNumLevels) m.bucketDir
      (f := restartMerge sha256) (g := fun _ level => level.restartMerge m.find)
      (fun i m₂ hok₂ hdir₂ => by
        rw [← find_congr hdir₂]
        exact restartMerge_refines hok₂) hok₁ hdir₁
    refine wp_mono hrestart (fun _ m₂ h₂ => ?_) fun e _ he => ?_
    · rw [hloop]
      exact h₂.2
    · rw [hloop]
      exact he
  · rw [he]
    rfl

end Assume

end SmartCore.Buckets.BucketManager
