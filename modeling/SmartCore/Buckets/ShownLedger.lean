import Mathlib.Logic.Encodable.Basic
import Mathlib.Logic.Equiv.List
import SmartCore.Buckets.ManagerRefinement
import SmartCore.Buckets.Retention

/-!
# The ledger that a node shows

A node shares buckets by their hashes, forgets and fetches their files, completes merges in workers,
is stopped or dies, and starts again from the state that it has last committed.

**Theorem (`view_run`).** If different buckets have different hashes, and merges find their flag
when they are restarted, then a node that runs shows its ledger: what the batches of the committed
ledgers, and that of the ledger being closed, say of each key.

**Theorem (`hash_run`).** Two such nodes that have closed the same ledgers have the same buckets,
and so the same hash of the list, however each of them was stopped and started.

The invariant is that the committed state was saved from a list that showed the committed ledgers.
What files there are matters only when the node starts: then those of the state are there, and each
of them is the bucket that was saved, since it has the same hash.
-/

namespace SmartCore.Buckets

variable {K E : Type} [Keyed E K] [LinearOrder K]

/-! ## Lists -/

/-- The list is as it is after these batches, and shows what they say. It differs from the list of a
node that is never stopped only in what merges are known to be complete. -/
structure Shows (batches : List (Batch E K)) (bl : BucketList E K) : Prop where
  inv : Inv batches.length bl
  view : ∀ k, bl.view k = ledgerAfter batches k
  same : ∃ bl₀, runBatches (fun _ _ => false) batches = .ok bl₀ ∧ Inv batches.length bl₀ ∧
    Same bl₀ bl

theorem Shows.start : Shows ([] : List (Batch E K)) {} :=
  ⟨inv_start, fun _ => rfl, {}, rfl, inv_start, fun _ _ => LevelSame.refl _⟩

section Lists

variable {batches : List (Batch E K)} {bl bl' : BucketList E K}

/-- Only the levels that there are matter. -/
theorem Shows.congr (h : Shows batches bl)
    (hlevels : ∀ i < kNumLevels, bl'.mLevels i = bl.mLevels i)
    (hlevel : ∀ i, (bl'.mLevels i).mLevel = i) : Shows batches bl' := by
  have hcurr : ∀ i < kNumLevels, bl'.curr i = bl.curr i := by
    intro i hi
    rw [BucketList.curr, BucketList.curr, hlevels i hi]
  have hsnap : ∀ i < kNumLevels, bl'.snap i = bl.snap i := by
    intro i hi
    rw [BucketList.snap, BucketList.snap, hlevels i hi]
  obtain ⟨bl₀, hrun, hinv₀, hsame⟩ := h.same
  refine ⟨⟨hlevel, ?_, ?_, fun j hj => ?_⟩, fun k => ?_, bl₀, hrun, hinv₀, fun i hi => ?_⟩
  · rw [hlevels 0 (by decide)]
    exact h.inv.fresh
  · rw [hsnap 10 (by decide)]
    exact h.inv.last
  · have hlt : j + 1 < kNumLevels := by
      unfold kNumLevels
      omega
    refine (h.inv.next j hj).congr (Or.inl (by rw [hlevels _ hlt])) (hcurr _ hlt)
      (hsnap j (by omega)) fun k hk => ?_
    rw [BucketList.above, hcurr j (by omega),
      BucketList.firstBelow_congr fun i hi => hlevels i (by omega)]
    exact hk
  · rw [BucketList.view_eq, BucketList.firstBelow_congr (n := 11) hlevels, ← BucketList.view_eq]
    exact h.view k
  · rw [hlevels i hi]
    exact hsame i hi

theorem Shows.resolveReady (h : Shows batches bl) (ready : ℕ → Bool) :
    Shows batches (bl.resolveReady ready) := by
  obtain ⟨bl₀, hrun, hinv₀, hsame⟩ := h.same
  refine ⟨h.inv.resolveReady ready, fun k => ?_, bl₀, hrun, hinv₀, ?_⟩
  · rw [BucketList.view_eq, firstBelow_resolveReady, ← BucketList.view_eq]
    exact h.view k
  · exact hsame.resolveReady (fun _ => false) ready

theorem Shows.addBatch (h : Shows batches bl) {batch : Batch E K} (hbatch : batch.Distinct)
    (hlen : batches.length + 1 < 2 ^ 32) :
    ∃ bl', bl.addBatch (UInt32.ofNat (batches.length + 1)) batch = .ok bl' ∧
      Shows (batches ++ [batch]) bl' := by
  have hnat : (UInt32.ofNat (batches.length + 1)).toNat = batches.length + 1 :=
    UInt32.toNat_ofNat_of_lt' hlen
  have hpred : (UInt32.ofNat (batches.length + 1)).toNat - 1 = batches.length := by omega
  obtain ⟨bl', hadd, hinv, hview⟩ := addBatch_spec (by rw [hpred]; exact h.inv) (by omega) hbatch
  rw [hnat] at hinv
  obtain ⟨bl₀, hrun, hinv₀, hsame⟩ := h.same
  obtain ⟨bl₁, bl₁', hadd₀, hadd', hinv₁, hsame₁⟩ :=
    hsame.addBatch (by rw [hpred]; exact hinv₀) (by omega) hbatch
  rw [hnat] at hinv₁
  rw [hadd] at hadd'
  obtain rfl := Except.ok.inj hadd'
  have hlength : (batches ++ [batch]).length = batches.length + 1 := by simp
  refine ⟨bl', hadd, ?_, fun k => ?_, bl₁, ?_, ?_, hsame₁⟩
  · rw [hlength]
    exact hinv
  · rw [hview, h.view]
    simp [ledgerAfter]
  · rw [runBatches_concat, hrun]
    simp only [bind, Except.bind, hadd₀]
    rfl
  · rw [hlength]
    exact hinv₁

/-- Lists after the same batches have the same buckets, and the same hash. -/
theorem Shows.agree (h : Shows batches bl) (h' : Shows batches bl') (hash : Bucket E K → Hash)
    (sha256 : List Hash → Hash) :
    bl'.buckets = bl.buckets ∧ bl'.getHash hash sha256 = bl.getHash hash sha256 := by
  obtain ⟨bl₀, hrun, -, hsame⟩ := h.same
  obtain ⟨bl₁, hrun', -, hsame'⟩ := h'.same
  obtain rfl : bl₀ = bl₁ := Except.ok.inj (hrun.symm.trans hrun')
  exact ⟨hsame'.buckets.trans hsame.buckets.symm,
    (hsame'.getHash hash sha256).trans (hsame.getHash hash sha256).symm⟩

/-- Every level finds the flag that merges into it are made with. -/
def RightFlags (mKeepDeadEntries : ℕ → Bool) : Prop :=
  ∀ i < kNumLevels, mKeepDeadEntries i = decide (i < kNumLevels - 1)

/-- A merge that finds its flag is restarted as it was. -/
theorem setKeepDead_eq {L i : ℕ} {keep : Bool} (h : Inv L bl) (hi : i < kNumLevels)
    (hkeep : keep = decide (i < kNumLevels - 1)) :
    (bl.mLevels i).mNextCurr.setKeepDead keep = (bl.mLevels i).mNextCurr := by
  rcases h.merge_cases hi with hc | ⟨M, hout⟩ | ⟨curr, snap, shadows, hin⟩
  · rw [hc]
    rfl
  · rw [hout]
    rfl
  · rw [hin, hkeep]
    rfl

theorem hasHashes_eq_false {L i : ℕ} (h : Inv L bl) (hi : i < kNumLevels) :
    (bl.mLevels i).mNextCurr.hasHashes = false := by
  rcases h.merge_cases hi with hc | ⟨M, hout⟩ | ⟨curr, snap, shadows, hin⟩
  · rw [hc]
    rfl
  · rw [hout]
    rfl
  · rw [hin]
    rfl

/-- **A restart.** If all buckets are there and the flags are right, the same ledger is shown. -/
theorem Shows.assumeState (h : Shows batches bl) {hash : Bucket E K → Hash} {ready keep : ℕ → Bool}
    {getBucketByHash : Hash → Option (Bucket E K)}
    (href : ∀ b ∈ (bl.resolveReady ready).referenced, getBucketByHash (hash b) = some b)
    (hkeep : RightFlags keep) :
    ∃ bl', Buckets.assumeState getBucketByHash (bl.saveState hash ready) keep = .ok bl' ∧
      Shows batches bl' := by
  have hres := h.resolveReady ready
  refine ⟨_, assumeState_saveState keep h.inv.level
    (fun i hi => hasHashes_eq_false hres.inv hi) href, hres.congr (fun i hi => ?_) fun i => ?_⟩
  · simp only [if_pos hi]
    rw [setKeepDead_eq hres.inv hi (hkeep i hi)]
  · by_cases hi : i < kNumLevels
    · simp only [if_pos hi]
      exact hres.inv.level i
    · simp only [if_neg hi]

/-- A state names the buckets of the list it was saved from. -/
theorem getHash_mem_allBuckets {sha256 : List (BucketEntry E K) → Hash} {ready : ℕ → Bool}
    {b : Bucket E K} (hb : b ∈ (bl.resolveReady ready).referenced) :
    b.getHash sha256 ∈ (bl.saveState (·.getHash sha256) ready).allBuckets := by
  obtain ⟨i, hi, hb⟩ := List.mem_flatMap.mp hb
  refine List.mem_flatMap.mpr ⟨i, hi, ?_⟩
  simp only [BucketList.saveState, List.mem_cons] at hb ⊢
  rcases hb with rfl | rfl | hb
  · exact Or.inl rfl
  · exact Or.inr (Or.inl rfl)
  · refine Or.inr (Or.inr ?_)
    cases hn : ((bl.resolveReady ready).mLevels i).mNextCurr with
    | FB_LIVE_INPUTS curr snap shadows k =>
      rw [hn] at hb
      have hmem := List.mem_map_of_mem (f := Bucket.getHash sha256) hb
      exact hmem
    | FB_LIVE_OUTPUT output =>
      rw [hn] at hb
      have hmem := List.mem_map_of_mem (f := Bucket.getHash sha256) hb
      exact hmem
    | FB_CLEAR => rw [hn] at hb; cases hb
    | FB_HASH_OUTPUT _ => rw [hn] at hb; cases hb
    | FB_HASH_INPUTS _ _ _ _ => rw [hn] at hb; cases hb

end Lists

namespace Retention

open BucketManager

/-! ## Nodes -/

/-- The batches of the committed ledgers, and that of the ledger that is being closed. -/
structure Closed (E K : Type) where
  committed : List (Batch E K) := []
  closing : Option (Batch E K) := none

def Closed.batches (t : Closed E K) : List (Batch E K) := t.committed ++ t.closing.toList

def Closed.step (t : Closed E K) : Event E K → Closed E K
  | .loadLastKnownLedger _ => { t with closing := none }
  | .addBatch batch => { t with closing := some batch }
  | .commit _ => { committed := t.batches }
  | _ => t

/-- What a run has closed. -/
def closed (events : List (Event E K)) : Closed E K := events.foldl Closed.step {}

/-- The entries of a batch have different keys, and a restart finds the right flags. -/
def Event.Proper : Event E K → Prop
  | .addBatch batch => batch.Distinct
  | .loadLastKnownLedger mKeepDeadEntries => RightFlags mKeepDeadEntries
  | _ => True

instance (e : Event E K) : Decidable e.Proper :=
  match e with
  | .addBatch batch => inferInstanceAs (Decidable batch.Distinct)
  | .loadLastKnownLedger mKeepDeadEntries =>
    inferInstanceAs (Decidable (∀ i < kNumLevels, mKeepDeadEntries i = decide (i < kNumLevels - 1)))
  | .storeCurrent _ => isTrue trivial
  | .commit _ => isTrue trivial
  | .forgetUnreferencedBuckets _ => isTrue trivial
  | .completeMerge _ => isTrue trivial
  | .publishQueuedHistory => isTrue trivial
  | .historyPublished _ => isTrue trivial
  | .getBucketByHash _ => isTrue trivial
  | .adoptFileAsBucket _ => isTrue trivial
  | .shutdown => isTrue trivial
  | .crash => isTrue trivial

/-- The state was saved from a list that showed these batches. -/
def SavedFrom (sha256 : List (BucketEntry E K) → Hash) (batches : List (Batch E K))
    (has : HistoryArchiveState) : Prop :=
  ∃ bl ready, has = BucketList.saveState (·.getHash sha256) ready bl ∧ Shows batches bl

/-- What holds of a node and what it has closed. -/
structure Holds (sha256 : List (BucketEntry E K) → Hash) (t : Closed E K) (n : Node E K) :
    Prop where
  down : n.phase = .down → ∃ dir, n.manager = { bucketDir := dir }
  ok : Ok sha256 n.manager
  used : ∀ h, Uses sha256 n.manager h → n.manager.HasFile h
  seq : n.ledgerSeq = t.committed.length
  first : n.has = none → t.committed = []
  last : ∀ has, n.has = some has → SavedFrom sha256 t.committed has
  between : n.phase = .idle ∨ n.phase = .committed → t.closing = none
  within : n.phase = .added ∨ n.phase = .stored → t.closing.isSome
  written : n.phase = .stored → ∃ has, n.written = some has ∧ SavedFrom sha256 t.batches has
  shows : n.phase ≠ .down → Shows t.batches n.manager.mBucketList

variable {sha256 : List (BucketEntry E K) → Hash} {n n' : Node E K} {t : Closed E K}

/-- There is no process. -/
theorem Holds.fall (h : Holds sha256 t n) {t' : Closed E K} (ht : t'.committed = t.committed)
    {dir : Hash → Option (Bucket E K)}
    (hok : Ok sha256 ({ bucketDir := dir } : BucketManager E K)) :
    Holds sha256 t' { n with manager := { bucketDir := dir }, phase := .down } := by
  refine
    { down := fun _ => ⟨dir, rfl⟩
      ok := hok
      used := fun x hx => ?_
      seq := by rw [ht]; exact h.seq
      first := by rw [ht]; exact h.first
      last := by rw [ht]; exact h.last
      between := fun hp => ?_
      within := fun hp => ?_
      written := fun hp => by cases hp
      shows := fun hp => absurd rfl hp }
  · rw [hasFile_of_uses_start hx]
    exact hasFile_zero
  · rcases hp with hp | hp <;> cases hp
  · rcases hp with hp | hp <;> cases hp

theorem holds_start : Holds sha256 ({} : Closed E K) ({} : Node E K) where
  down _ := ⟨_, rfl⟩
  ok := ⟨fun _ _ hb => (by cases hb), fun _ hs => (by cases hs)⟩
  used h hh := by
    rw [hasFile_of_uses_start hh]
    exact hasFile_zero
  seq := rfl
  first _ := rfl
  last has hs := by cases hs
  between hp := by rcases hp with hp | hp <;> cases hp
  within hp := by rcases hp with hp | hp <;> cases hp
  written hp := by cases hp
  shows hp := absurd rfl hp

/-- A fault of the code ends the process. -/
theorem Holds.call {ε α : Type} {x : ManagerM E K ε α} {phase : Phase} (h : Holds sha256 t n)
    {t' : Closed E K} (ht : t'.committed = t.committed)
    (hx : wp x (fun _ m' => Holds sha256 t' { n with manager := m', phase := phase })
      (fun _ m' => Ok sha256 m') n.manager) :
    Holds sha256 t' (n.call x phase) := by
  unfold wp at hx
  unfold Node.call
  cases hrun : x n.manager with
  | ok a m' =>
    rw [hrun] at hx
    exact hx
  | error e m' =>
    rw [hrun] at hx
    exact h.fall ht (ok_crash hx)

/-- Another manager with the same list. -/
theorem Holds.sameList (h : Holds sha256 t n) (hup : n.phase ≠ .down) {m : BucketManager E K}
    (hok : Ok sha256 m) (hused : ∀ x, Uses sha256 m x → m.HasFile x)
    (hlist : m.mBucketList = n.manager.mBucketList) :
    Holds sha256 t { n with manager := m } where
  down hp := absurd hp hup
  ok := hok
  used := hused
  seq := h.seq
  first := h.first
  last := h.last
  between := h.between
  within := h.within
  written := h.written
  shows hp := by
    show Shows t.batches m.mBucketList
    rw [hlist]
    exact h.shows hp

/-- Code that leaves the list as it is. -/
theorem Holds.aside {ε α : Type} {x : ManagerM E K ε α} (h : Holds sha256 t n)
    (hup : n.phase ≠ .down) (hx : wp x (fun _ m' => Aside sha256 n.manager m')
      (fun _ m' => Safe sha256 n.manager m') n.manager) :
    Holds sha256 t (n.call x n.phase) := by
  refine h.call rfl (wp_mono hx (fun _ m' hm => ?_) fun _ _ hm => hm.ok)
  have hg : Going sha256 n.manager m' := Going.aside ⟨Safe.refl h.ok, h.used⟩ hm
  exact h.sameList hup hg.ok hg.used hm.list

theorem completeMerge_list (m : BucketManager E K) (hok : Ok sha256 m) (i : ℕ) :
    wp (completeMerge sha256 i) (fun _ m' => m'.mBucketList = m.mBucketList)
      (fun _ _ => True) m := by
  unfold completeMerge
  simp only [wp_bind, wp_get, wp_runIf, wp_deref]
  refine ⟨fun _ => ⟨fun b _ => ?_, fun _ => trivial⟩, fun _ => trivial⟩
  refine wp_mono (wp_adoptFileAsBucket hok b) (fun _ m₁ h₁ => ?_) fun _ _ (_ : True) => trivial
  rw [wp_modify]
  exact h₁.1.list

/-- A bucket that is fetched leaves the list as it is, whether or not its file is there. -/
theorem fetch_aside {m₀ m : BucketManager E K} (h : Aside sha256 m₀ m) (x : Hash) :
    wp (BucketManager.fetch x) (fun b m' => Aside sha256 m₀ m' ∧ b.getHash sha256 = x)
      (fun _ m' => Safe sha256 m₀ m') m := by
  unfold BucketManager.fetch
  rw [wp_bind]
  refine wp_mono (wp_getBucketByHash h.ok x) (fun r m' hr => ?_) fun _ _ hm => hm
  obtain ⟨hfind, hstill⟩ := hr
  have haside := h.trans hstill.toAside
  rw [wp_deref]
  exact ⟨fun b hb => ⟨haside, (find_some h.ok (hfind.symm.trans hb)).1⟩, fun _ => haside.toSafe⟩

theorem makeSnapshotLive_aside {m : BucketManager E K} (hok : Ok sha256 m)
    (has : HistoryArchiveState) :
    wp (makeSnapshotLive sha256 has) (fun _ m' => Aside sha256 m m')
      (fun _ m' => Safe sha256 m m') m := by
  refine wp_forM (I := fun m' => Aside sha256 m m') (fun i _ m₁ h₁ => ?_) (Aside.refl hok)
  simp only [wp_bind, wp_runIf, Bool.and_eq_true]
  refine ⟨fun hhash => ?_, fun _ => h₁⟩
  refine wp_mono (wp_makeLive hhash.1 (I := fun m' => Aside sha256 m m')
    (fun x _ m₂ h₂ => fetch_aside h₂ x) h₁) (fun next m₂ h₂ => ?_) fun _ _ hm => hm
  refine ⟨fun _ => ?_, fun _ => h₂.1⟩
  exact wp_mono (wp_retainInputs h₂.1.ok next) (fun _ _ h₃ => h₂.1.trans h₃.toAside)
    fun _ _ hm => hm

/-! ## Closing a ledger -/

theorem Holds.addBatch (hinj : (Bucket.getHash sha256).Injective) (h : Holds sha256 t n)
    (hphase : n.phase = .idle) {batch : Batch E K} (hbatch : batch.Distinct)
    (hseq : n.ledgerSeq + 1 < 2 ^ 32) :
    Holds sha256 { t with closing := some batch }
      (n.call (BucketManager.addBatch sha256 (UInt32.ofNat (n.ledgerSeq + 1)) batch) .added) := by
  have hup : n.phase ≠ .down := by
    rw [hphase]
    decide
  have hshows := h.shows hup
  rw [Closed.batches, h.between (Or.inl hphase)] at hshows
  simp only [Option.toList_none, List.append_nil] at hshows
  rw [h.seq] at hseq ⊢
  obtain ⟨bl', hadd, hshows'⟩ := hshows.addBatch hbatch hseq
  refine h.call rfl (wp_mono (wp_and (BucketManager.addBatch_spec h.ok h.used batch)
    (addBatch_refines hinj h.ok batch)) (fun _ m' hm => ?_) fun _ _ hm => hm.1.ok)
  obtain ⟨hg, hlist⟩ := hm
  rw [hadd] at hlist
  obtain rfl := Except.ok.inj hlist
  exact
    { down := fun hp => by cases hp
      ok := hg.ok
      used := hg.used
      seq := h.seq
      first := h.first
      last := h.last
      between := fun hp => by rcases hp with hp | hp <;> cases hp
      within := fun _ => rfl
      written := fun hp => by cases hp
      shows := fun _ => hshows' }

theorem Holds.storeCurrent (h : Holds sha256 t n) (hphase : n.phase = .added) (ready : ℕ → Bool) :
    Holds sha256 t { n with
      written := some (n.manager.mBucketList.saveState (·.getHash sha256) ready)
      phase := .stored } where
  down hp := by cases hp
  ok := h.ok
  used := h.used
  seq := h.seq
  first := h.first
  last := h.last
  between hp := by rcases hp with hp | hp <;> cases hp
  within _ := h.within (Or.inl hphase)
  written _ := ⟨_, rfl, n.manager.mBucketList, ready, rfl, h.shows (by rw [hphase]; decide)⟩
  shows _ := h.shows (by rw [hphase]; decide)

theorem Holds.commit (h : Holds sha256 t n) (hphase : n.phase = .stored)
    (queue : List (ℕ × HistoryArchiveState)) {phase : Phase}
    (hnext : phase = .idle ∨ phase = .committed) :
    Holds sha256 { committed := t.batches } { n with
      has := n.written, publishqueue := queue, ledgerSeq := n.ledgerSeq + 1, phase := phase } := by
  obtain ⟨has, hwritten, hsaved⟩ := h.written hphase
  obtain ⟨batch, hbatch⟩ := Option.isSome_iff_exists.mp (h.within (Or.inr hphase))
  refine
    { down := fun hp => ?_
      ok := h.ok
      used := h.used
      seq := ?_
      first := fun hnone => ?_
      last := fun has' hs => ?_
      between := fun _ => rfl
      within := fun hp => ?_
      written := fun hp => ?_
      shows := fun _ => ?_ }
  · rcases hnext with rfl | rfl <;> cases hp
  · simp [Closed.batches, hbatch, h.seq]
  · rw [hwritten] at hnone
    cases hnone
  · rw [hwritten] at hs
    obtain rfl := Option.some.inj hs
    exact hsaved
  · rcases hnext with rfl | rfl <;> rcases hp with hp | hp <;> cases hp
  · rcases hnext with rfl | rfl <;> cases hp
  · have hshows := h.shows (by rw [hphase]; decide)
    simpa [Closed.batches] using hshows

/-! ## Starting -/

/-- The file of a hash that a state names holds the bucket that was saved. -/
theorem find_of_hasFile (hinj : (Bucket.getHash sha256).Injective) {m : BucketManager E K}
    (hok : Ok sha256 m) {b : Bucket E K} (hf : m.HasFile (b.getHash sha256)) :
    m.find (b.getHash sha256) = some b := by
  cases hfind : m.find (b.getHash sha256) with
  | none => exact absurd hf (find_none hfind)
  | some b' => rw [hinj (find_some hok hfind).1]

theorem Holds.load (hinj : (Bucket.getHash sha256).Injective) (h : Holds sha256 t n)
    (hphase : n.phase = .down) {keep : ℕ → Bool} (hkeep : RightFlags keep)
    {has : HistoryArchiveState} (hhas : n.has = some has)
    (hfiles : ∀ y ∈ has.allBuckets, n.manager.HasFile y) :
    Holds sha256 { t with closing := none }
      (n.call (BucketManager.assumeState sha256 has keep) .idle) := by
  obtain ⟨bl, ready, rfl, hshows⟩ := h.last has hhas
  obtain ⟨dir, hdir⟩ := h.down hphase
  have hlist : n.manager.mBucketList = {} := by rw [hdir]
  have hfind : ∀ b ∈ (bl.resolveReady ready).referenced,
      n.manager.find (b.getHash sha256) = some b :=
    fun b hb => find_of_hasFile hinj h.ok (hfiles _ (getHash_mem_allBuckets hb))
  obtain ⟨bl', hassume, hshows'⟩ := hshows.assumeState hfind hkeep
  refine h.call rfl (wp_mono (wp_and (assumeState_spec h.ok h.used hfiles)
    (assumeState_refines h.ok hlist)) (fun _ m' hm => ?_) fun _ _ hm => hm.1.elim)
  obtain ⟨hg, hlist'⟩ := hm
  rw [hassume] at hlist'
  obtain rfl := Except.ok.inj hlist'
  exact
    { down := fun hp => by cases hp
      ok := hg.ok
      used := hg.used
      seq := h.seq
      first := h.first
      last := h.last
      between := fun _ => rfl
      within := fun hp => by rcases hp with hp | hp <;> cases hp
      written := fun hp => by cases hp
      shows := fun _ => by simpa [Closed.batches] using hshows' }

/-- A node without a state starts with an empty list. -/
theorem Holds.fresh (h : Holds sha256 t n) (hphase : n.phase = .down) (hhas : n.has = none) :
    Holds sha256 { t with closing := none } { n with phase := .idle } := by
  obtain ⟨dir, hdir⟩ := h.down hphase
  exact
    { down := fun hp => (by cases hp)
      ok := h.ok
      used := h.used
      seq := h.seq
      first := h.first
      last := h.last
      between := fun _ => rfl
      within := fun hp => (by rcases hp with hp | hp <;> cases hp)
      written := fun hp => (by cases hp)
      shows := fun _ => by
        rw [hdir]
        simp only [Closed.batches, h.first hhas, Option.toList_none, List.append_nil]
        exact Shows.start }

/-- No bucket of the list is forgotten. -/
theorem Holds.forget (h : Holds sha256 t n) (hphase : n.phase = .committed) (held : Hash → Bool) :
    Holds sha256 t { n with
      manager := n.manager.forgetUnreferencedBuckets sha256 (n.publishqueue.map (·.2)) held
      phase := .idle } := by
  have hup : n.phase ≠ .down := by
    rw [hphase]
    decide
  obtain ⟨hok, -, hkept⟩ := forgetUnreferencedBuckets_spec h.ok (n.publishqueue.map (·.2)) held
  have hsame := h.sameList hup hok (fun y hy => hkept y (Or.inl hy) (h.used y hy)) rfl
  exact
    { down := fun hp => (by cases hp)
      ok := hsame.ok
      used := hsame.used
      seq := h.seq
      first := h.first
      last := h.last
      between := fun _ => h.between (Or.inr hphase)
      within := fun hp => (by rcases hp with hp | hp <;> cases hp)
      written := fun hp => (by cases hp)
      shows := fun _ => h.shows hup }

/-! ## One event -/

theorem Holds.step (hinj : (Bucket.getHash sha256).Injective) (h : Holds sha256 t n)
    {e : Event E K} (he : e.Proper) (hseq : n.ledgerSeq + 1 < 2 ^ 32)
    (hstep : step sha256 n e = some n') : Holds sha256 (t.step e) n' := by
  cases e with
  | loadLastKnownLedger keep =>
    simp only [Retention.step, Option.ite_none_right_eq_some] at hstep
    obtain ⟨⟨hphase, hmissing⟩, hstep⟩ := hstep
    split at hstep
    next hhas => exact Option.some.inj hstep ▸ h.fresh hphase hhas
    next has hhas =>
      obtain rfl := Option.some.inj hstep
      refine h.load hinj hphase he hhas fun y hy => ?_
      have hnot : y ∉ n.states.flatMap n.manager.checkForMissingBucketsFiles := by
        rw [hmissing]
        exact List.not_mem_nil
      have hstate : has ∈ n.states := by simp [Node.states, hhas]
      by_contra hno
      refine hnot (List.mem_flatMap.mpr ⟨has, hstate, List.mem_filter.mpr ⟨hy, ?_⟩⟩)
      simpa [HasFile, not_or] using hno
  | addBatch batch =>
    obtain ⟨hphase, rfl⟩ := of_guard hstep
    exact h.addBatch hinj hphase he hseq
  | storeCurrent ready =>
    obtain ⟨hphase, rfl⟩ := of_guard hstep
    exact h.storeCurrent hphase _
  | commit queue =>
    obtain ⟨hphase, rfl⟩ := of_guard hstep
    refine h.commit hphase _ ?_
    split_ifs
    · exact Or.inl rfl
    · exact Or.inr rfl
  | forgetUnreferencedBuckets held =>
    obtain ⟨hphase, rfl⟩ := of_guard hstep
    exact h.forget hphase held
  | completeMerge level =>
    obtain ⟨hup, rfl⟩ := of_guard hstep
    refine h.call rfl (wp_mono (wp_and (completeMerge_spec h.ok h.used level)
      (completeMerge_list n.manager h.ok level)) (fun _ m' hm => ?_) fun _ _ hm => hm.1.ok)
    exact h.sameList hup hm.1.1.ok hm.1.1.used hm.2
  | publishQueuedHistory =>
    simp only [Retention.step, Option.ite_none_right_eq_some] at hstep
    obtain ⟨hup, hstep⟩ := hstep
    split at hstep
    next => exact Option.some.inj hstep ▸ h
    next q hq =>
      obtain rfl := Option.some.inj hstep
      exact h.aside hup (makeSnapshotLive_aside h.ok q.2)
  | historyPublished seq =>
    obtain ⟨-, rfl⟩ := of_guard hstep
    exact { h with }
  | getBucketByHash hash =>
    obtain ⟨hup, rfl⟩ := of_guard hstep
    exact h.aside hup (wp_mono (wp_getBucketByHash h.ok hash) (fun _ _ hm => hm.2.toAside)
      fun _ _ hm => hm)
  | adoptFileAsBucket b =>
    obtain ⟨hup, rfl⟩ := of_guard hstep
    exact h.aside hup (wp_mono (wp_adoptFileAsBucket h.ok b) (fun _ _ hm => hm.1) fun _ _ hm => hm)
  | shutdown =>
    obtain ⟨-, rfl⟩ := of_guard hstep
    exact h.fall rfl (ok_shutdown h.ok)
  | crash =>
    obtain ⟨-, rfl⟩ := of_guard hstep
    exact h.fall rfl (ok_crash h.ok)

/-! ## Runs -/

theorem ledgerSeq_call {ε α : Type} (x : ManagerM E K ε α) (phase : Phase) :
    (n.call x phase).ledgerSeq = n.ledgerSeq := by
  unfold Node.call
  split
  · rfl
  · rfl

/-- No event takes a ledger back. -/
theorem ledgerSeq_le {e : Event E K} (hstep : step sha256 n e = some n') :
    n.ledgerSeq ≤ n'.ledgerSeq := by
  cases e with
  | loadLastKnownLedger keep =>
    simp only [Retention.step, Option.ite_none_right_eq_some] at hstep
    obtain ⟨-, hstep⟩ := hstep
    split at hstep
    · obtain rfl := Option.some.inj hstep
      exact le_rfl
    · obtain rfl := Option.some.inj hstep
      exact (ledgerSeq_call _ _).ge
  | publishQueuedHistory =>
    simp only [Retention.step, Option.ite_none_right_eq_some] at hstep
    obtain ⟨-, hstep⟩ := hstep
    split at hstep
    · obtain rfl := Option.some.inj hstep
      exact le_rfl
    · obtain rfl := Option.some.inj hstep
      exact (ledgerSeq_call _ _).ge
  | _ =>
    obtain ⟨-, rfl⟩ := of_guard hstep
    first
      | exact (ledgerSeq_call _ _).ge
      | exact Nat.le_succ _
      | exact le_rfl

theorem holds_run (hinj : (Bucket.getHash sha256).Injective) {events : List (Event E K)}
    (hproper : ∀ e ∈ events, e.Proper) (hrun : run sha256 events = some n)
    (hseq : n.ledgerSeq + 1 < 2 ^ 32) : Holds sha256 (closed events) n := by
  induction events using List.reverseRecOn generalizing n with
  | nil =>
    cases hrun
    exact holds_start
  | append_singleton events e ih =>
    rw [run_concat, Option.bind_eq_some_iff] at hrun
    obtain ⟨n₁, hrun, hstep⟩ := hrun
    have hle := ledgerSeq_le hstep
    have h := ih (fun e' he' => hproper e' (List.mem_append_left _ he')) hrun (by omega)
    rw [closed, List.foldl_append]
    exact h.step hinj (hproper e (by simp)) (by omega) hstep

/-- **A node shows its ledger**, across all restarts. -/
theorem view_run (hinj : (Bucket.getHash sha256).Injective) (events : List (Event E K))
    (hproper : ∀ e ∈ events, e.Proper) (hrun : run sha256 events = some n)
    (hseq : n.ledgerSeq + 1 < 2 ^ 32) (hup : n.phase ≠ .down) :
    n.ledgerSeq = (closed events).committed.length ∧
    ∀ k, n.manager.mBucketList.view k = ledgerAfter (closed events).batches k := by
  have h := holds_run hinj hproper hrun hseq
  exact ⟨h.seq, (h.shows hup).view⟩

/-- **Nodes agree on the hash of the list.** Two nodes that have closed ledgers with the same
batches have the same buckets and the same `bucketListHash`, however each of them was stopped, and
whenever merges were completed and buckets forgotten. -/
theorem hash_run {n' : Node E K} (hinj : (Bucket.getHash sha256).Injective)
    (events events' : List (Event E K)) (hproper : ∀ e ∈ events, e.Proper)
    (hproper' : ∀ e ∈ events', e.Proper) (hrun : run sha256 events = some n)
    (hrun' : run sha256 events' = some n') (hseq : n.ledgerSeq + 1 < 2 ^ 32)
    (hseq' : n'.ledgerSeq + 1 < 2 ^ 32) (hup : n.phase ≠ .down) (hup' : n'.phase ≠ .down)
    (hbatches : (closed events').batches = (closed events).batches) (concat : List Hash → Hash) :
    n'.manager.mBucketList.buckets = n.manager.mBucketList.buckets ∧
    n'.manager.mBucketList.getHash (·.getHash sha256) concat =
      n.manager.mBucketList.getHash (·.getHash sha256) concat := by
  have h := (holds_run hinj hproper hrun hseq).shows hup
  have h' := (holds_run hinj hproper' hrun' hseq').shows hup'
  rw [hbatches] at h'
  exact h.agree h' _ _

section Example

/-- Entries with a number as their key. -/
instance : Keyed (ℕ × ℕ) ℕ := ⟨Prod.fst⟩

/-- A bucket without entries has the hash zero. -/
def code (entries : List (BucketEntry (ℕ × ℕ) ℕ)) : Hash :=
  Encodable.encode (entries.map fun e => (e.key, e.live?.map Prod.snd)) + 1

theorem getHash_code_injective : (Bucket.getHash code).Injective := by
  intro b b' h
  have hentry : Function.Injective fun e : BucketEntry (ℕ × ℕ) ℕ =>
      (e.key, e.live?.map Prod.snd) := by
    intro e e' he
    cases e <;> cases e' <;> simp_all [BucketEntry.live?, Keyed.key, Prod.ext_iff]
  have hcode : Function.Injective code := fun l l' hl =>
    List.map_injective_iff.mpr hentry (Encodable.encode_injective (Nat.succ.inj hl))
  refine Bucket.ext ?_
  unfold Bucket.getHash at h
  split_ifs at h with he he' he'
  · rw [List.isEmpty_iff.mp he, List.isEmpty_iff.mp he']
  · exact absurd h (Nat.succ_ne_zero _).symm
  · exact absurd h (Nat.succ_ne_zero _)
  · exact hcode h

/-- A ledger is closed, and then unreferenced buckets are forgotten, unless they are `held`. -/
def closing (held : Bool) (liveEntries : List (ℕ × ℕ)) (deadEntries : List ℕ) :
    List (Event (ℕ × ℕ) ℕ) :=
  [.addBatch ⟨liveEntries, deadEntries⟩, .storeCurrent fun _ => true, .commit false,
    .forgetUnreferencedBuckets fun _ => held]

/-- The node starts, and closes the genesis ledger and three more. -/
def fourLedgers (held : Bool) : List (Event (ℕ × ℕ) ℕ) :=
  .loadLastKnownLedger (fun i => decide (i < 10)) :: ((closing held [(1, 7)] []).dropLast ++
    closing held [(2, 8)] [] ++ closing held [] [1] ++ closing held [(3, 9)] [])

/-- The fourth ledger starts a merge, which runs when the node dies. It is started again, and closes
another ledger. -/
def dieAndStart : List (Event (ℕ × ℕ) ℕ) :=
  fourLedgers false ++ .crash :: .loadLastKnownLedger (fun i => decide (i < 10)) ::
    closing false [(2, 5)] []

/-- The node goes on. -/
def goOn : List (Event (ℕ × ℕ) ℕ) :=
  fourLedgers true ++ .completeMerge 1 :: closing true [(2, 5)] []

/-- It runs, and is in a ledger that a node can have. -/
def running (events : List (Event (ℕ × ℕ) ℕ)) : Bool :=
  (run code events).any fun n => decide (n.ledgerSeq + 1 < 2 ^ 32) && decide (n.phase ≠ .down)

theorem running_iff {events : List (Event (ℕ × ℕ) ℕ)} : running events = true ↔
    ∃ n, run code events = some n ∧ n.ledgerSeq + 1 < 2 ^ 32 ∧ n.phase ≠ .down := by
  simp [running, Option.any_eq_true]

theorem view_run_dieAndStart : ∃ n, run code dieAndStart = some n ∧
    ∀ k, n.manager.mBucketList.view k = ledgerAfter (closed dieAndStart).batches k := by
  obtain ⟨n, hrun, hseq, hup⟩ :=
    running_iff.mp (show running dieAndStart = true by decide +kernel)
  have hproper : ∀ e ∈ dieAndStart, e.Proper := by decide
  exact ⟨n, hrun, (view_run getHash_code_injective dieAndStart hproper hrun hseq hup).2⟩

theorem hash_run_goOn : ∃ n n', run code dieAndStart = some n ∧ run code goOn = some n' ∧
    n'.manager.mBucketList.buckets = n.manager.mBucketList.buckets := by
  obtain ⟨n, hrun, hseq, hup⟩ :=
    running_iff.mp (show running dieAndStart = true by decide +kernel)
  obtain ⟨n', hrun', hseq', hup'⟩ := running_iff.mp (show running goOn = true by decide +kernel)
  have hproper : ∀ e ∈ dieAndStart, e.Proper := by decide
  have hproper' : ∀ e ∈ goOn, e.Proper := by decide
  exact ⟨n, n', hrun, hrun', (hash_run getHash_code_injective dieAndStart goOn hproper hproper'
    hrun hrun' hseq hseq' hup hup' rfl List.sum).1⟩

end Example

end Retention

end SmartCore.Buckets
