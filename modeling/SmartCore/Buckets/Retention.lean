import Mathlib.Data.List.MinMax
import SmartCore.Buckets.BucketManager

/-!
# Buckets that are needed later

A node closes ledgers, publishes the states that are queued, is stopped or dies, and is started
again from the state that it has last committed. The files of this state and of all queued states
are needed later.

Closing a ledger writes the state of the list, and whatever has been written is used by the list
until unreferenced buckets are forgotten. So the files are there, unless an object that does not
retain its file is destroyed with the process.

**Theorem (`files_kept_iff`).** In every state that a run reaches all needed files are there iff
whenever the run stops the node, no object of a needed file is without `mRetain`.

The condition holds after every closed ledger, since `forgetUnreferencedBuckets` retains the file of
each object (`retained_of_forget`). After a restart only objects of outputs can violate it
(`retained_of_start`): `makeLive` has the inputs of a merge retained, but not its output. So a node
that is only stopped after a closed ledger, or after a start from a state without a needed output,
keeps the files (`files_kept_of_stops`), and one that is started and then stopped loses the output
(`output_lost`).
-/

namespace SmartCore.Buckets

variable {K E : Type} [Keyed E K] [LinearOrder K]

/-! ## What a restart retains -/

namespace BucketManager

variable {ε : Type} {sha256 : List (BucketEntry E K) → Hash} {m m' : BucketManager E K}

section Retained

variable {S : Hash → Prop} {has : HistoryArchiveState} {keep : ℕ → Bool}

/-- Objects that would remove their file are in `S`. -/
def Lax (S : Hash → Prop) (m : BucketManager E K) : Prop :=
  ∀ h, h ≠ 0 → m.mSharedBuckets h = some false → S h

section Specs

variable {E' : ε → BucketManager E K → Prop}

theorem lax_getBucketByHash (hok : Ok sha256 m) (hlax : Lax S m) (h : Hash) :
    wp (getBucketByHash h) (fun r m' => (Still sha256 m m' ∧ Lax (fun x => x = h ∨ S x) m') ∧
      ∀ b, r = some b → b.getHash sha256 = h) E' m := by
  have hlax' : Lax (fun x => x = h ∨ S x) m := fun x hx hs => Or.inr (hlax x hx hs)
  have hflags : wp (getBucketByHash h) (fun _ m' => Lax (fun x => x = h ∨ S x) m') E' m := by
    unfold getBucketByHash
    rw [wp_ite]
    refine ⟨fun _ => hlax', fun _ => ?_⟩
    simp only [wp_bind, wp_get, wp_runIf, wp_modify, wp_pure]
    refine ⟨fun _ x hx hs => ?_, fun _ => hlax'⟩
    by_cases hxh : x = h
    · exact Or.inl hxh
    · simp only [Function.update_of_ne hxh] at hs
      exact hlax' x hx hs
  exact wp_mono (wp_and (wp_getBucketByHash hok h) hflags)
    (fun _ _ hr => ⟨⟨hr.1.2, hr.2⟩, fun b hb => (find_some hok (hr.1.1.symm.trans hb)).1⟩) fun _ _ hr => hr.1

theorem lax_setRetain (hok : Ok sha256 m) (hlax : Lax S m) (h : Hash) (r : Bool) :
    wp (setRetain h r) (fun _ m' => Still sha256 m m' ∧
      Lax (fun x => (x = h ∧ r = false) ∨ (x ≠ h ∧ S x)) m') E' m := by
  have hflags : wp (setRetain h r)
      (fun _ m' => Lax (fun x => (x = h ∧ r = false) ∨ (x ≠ h ∧ S x)) m') E' m := by
    unfold setRetain
    rw [wp_modify]
    intro x hx hs
    by_cases hxh : x = h
    · subst hxh
      split_ifs at hs with hsome
      · exact Or.inl ⟨rfl, by simpa using hs⟩
      · simp [hs] at hsome
    · refine Or.inr ⟨hxh, hlax x hx ?_⟩
      split_ifs at hs
      · simpa [Function.update_of_ne hxh] using hs
      · exact hs
  exact wp_mono (wp_and (wp_setRetain hok h r) hflags) (fun _ _ hm => hm) fun _ _ hm => hm.1

/-- The new object retains its file, if the other one had none or is the same. -/
theorem lax_replace (hok : Ok sha256 m) (hlax : Lax S m) {old new : Hash}
    (hold : old = 0 ∨ old = new) (i : ℕ) (level : BucketLevel E K) :
    wp (do setRetain old false; setLevel i level; setRetain new true)
      (fun _ m' => Ok sha256 m' ∧ Lax (fun x => S x ∧ x ≠ new) m' ∧
        m'.mBucketList = m.mBucketList.setLevel i level) E' m := by
  rw [wp_bind]
  refine wp_mono (lax_setRetain hok hlax old false) (fun _ m₁ h₁ => ?_) fun _ _ h => h
  obtain ⟨haside, hlax₁⟩ := h₁
  rw [wp_bind, setLevel, wp_modify]
  have hok₂ : Ok sha256 { m₁ with mBucketList := m₁.mBucketList.setLevel i level } :=
    ⟨haside.ok.named, haside.ok.backed⟩
  refine wp_mono (lax_setRetain hok₂ hlax₁ new true) (fun _ m₂ h₂ => ?_) fun _ _ h => h
  refine ⟨h₂.1.ok, fun x hx hs => ?_, ?_⟩
  · rcases h₂.2 x hx hs with ⟨-, hf⟩ | ⟨hnew, ⟨hxo, -⟩ | ⟨-, hS⟩⟩
    · cases hf
    · rcases hold with hz | heq
      · exact absurd (hxo.trans hz) hx
      · exact absurd (hxo.trans heq) hnew
    · exact ⟨hS, hnew⟩
  · rw [h₂.1.list, haside.list]

theorem lax_retainInputs (hok : Ok sha256 m) {l : List (Bucket E K)}
    (hlax : Lax (fun x => x ∈ l.map (·.getHash sha256) ∨ S x) m) :
    wp (l.forM fun b => setRetain (b.getHash sha256) true)
      (fun _ m' => Aside sha256 m m' ∧ Lax S m') E' m := by
  induction l generalizing m with
  | nil => exact ⟨Aside.refl hok, fun x hx hs => by simpa using hlax x hx hs⟩
  | cons b l ih =>
    show wp (setRetain (b.getHash sha256) true >>= fun _ => l.forM _) _ _ m
    rw [wp_bind]
    refine wp_mono (lax_setRetain hok hlax _ _) (fun _ m₁ h₁ => ?_) fun _ _ h => h
    refine wp_mono (ih h₁.1.ok fun x hx hs => ?_) (fun _ m₂ h₂ => ⟨h₁.1.toAside.trans h₂.1, h₂.2⟩)
      fun _ _ h => h
    rcases h₁.2 x hx hs with ⟨-, hf⟩ | ⟨hne, hx'⟩
    · cases hf
    · simpa [hne] using hx'

end Specs

/-- A hash that a state says is the output of a merge. -/
def Resolved (has : HistoryArchiveState) (h : Hash) : Prop :=
  ∃ i < kNumLevels, (has.currentBuckets i).next = .FB_HASH_OUTPUT h

/-- While `has` is assumed, only objects of outputs would remove their files. -/
structure Assuming (sha256 : List (BucketEntry E K) → Hash) (has : HistoryArchiveState)
    (m : BucketManager E K) : Prop where
  ok : Ok sha256 m
  lax : Lax (Resolved has) m
  curr : ∀ i, (m.mBucketList.mLevels i).mCurr.getHash sha256 = 0 ∨
    (m.mBucketList.mLevels i).mCurr.getHash sha256 = (has.currentBuckets i).curr
  snap : ∀ i, (m.mBucketList.mLevels i).mSnap.getHash sha256 = 0 ∨
    (m.mBucketList.mLevels i).mSnap.getHash sha256 = (has.currentBuckets i).snap
  next : ∀ i h, (m.mBucketList.mLevels i).mNextCurr = .FB_HASH_OUTPUT h → Resolved has h

/-- A level gets other buckets. -/
theorem Assuming.withLevel (h : Assuming sha256 has m) (hok : Ok sha256 m')
    (hlax : Lax (Resolved has) m') {i : ℕ} {l : BucketLevel E K}
    (hlist : m'.mBucketList = m.mBucketList.setLevel i l)
    (hcurr : l.mCurr.getHash sha256 = 0 ∨
      l.mCurr.getHash sha256 = (has.currentBuckets i).curr)
    (hsnap : l.mSnap.getHash sha256 = 0 ∨
      l.mSnap.getHash sha256 = (has.currentBuckets i).snap)
    (hnext : ∀ x, l.mNextCurr = .FB_HASH_OUTPUT x → Resolved has x) :
    Assuming sha256 has m' := by
  have hlevel : ∀ j, m'.mBucketList.mLevels j =
      if j = i then l else m.mBucketList.mLevels j := by
    intro j
    rw [hlist]
    exact Function.update_apply _ _ _ _
  refine ⟨hok, hlax, fun j => ?_, fun j => ?_, fun j => ?_⟩
  · rw [hlevel]
    split_ifs with hj
    · rw [hj]
      exact hcurr
    · exact h.curr j
  · rw [hlevel]
    split_ifs with hj
    · rw [hj]
      exact hsnap
    · exact h.snap j
  · rw [hlevel]
    split_ifs
    · exact hnext
    · exact h.next j

theorem Assuming.assumeLevel (h : Assuming sha256 has m) {i : ℕ} (hi : i < kNumLevels) :
    wp (assumeLevel sha256 has keep i) (fun _ m' => Assuming sha256 has m') (fun _ _ => True) m := by
  unfold BucketManager.assumeLevel
  simp only [wp_bind, wp_deref, wp_get]
  refine wp_mono (lax_getBucketByHash h.ok h.lax _) (fun curr? m₁ h₁ => ?_) fun _ _ h => h
  obtain ⟨⟨haside₁, hlax₁⟩, hcurr⟩ := h₁
  refine wp_mono (lax_getBucketByHash haside₁.ok hlax₁ _) (fun snap? m₂ h₂ => ?_) fun _ _ h => h
  obtain ⟨⟨haside₂, hlax₂⟩, hsnap⟩ := h₂
  refine ⟨fun curr hc => ⟨fun snap hs => ?_, fun _ => trivial⟩, fun _ => trivial⟩
  have hlist₂ : m₂.mBucketList = m.mBucketList := by rw [haside₂.list, haside₁.list]
  unfold setCurr
  rw [wp_bind, wp_get]
  refine wp_mono (lax_replace haside₂.ok hlax₂ ?_ i _) (fun _ m₃ h₃ => ?_) fun _ _ h => h
  · rw [hcurr curr hc, hlist₂]
    exact h.curr i
  obtain ⟨hok₃, hlax₃, hlist₃⟩ := h₃
  unfold setSnap
  rw [wp_bind, wp_get]
  refine wp_mono (lax_replace hok₃ hlax₃ ?_ i _) (fun _ m₄ h₄ => ?_) fun _ _ h => h
  · rw [hsnap snap hs, hlist₃, hlist₂]
    simpa [BucketList.setLevel, BucketLevel.setCurr] using h.snap i
  obtain ⟨hok₄, hlax₄, hlist₄⟩ := h₄
  have hlevel₄ : m₄.mBucketList.mLevels i =
      { (m.mBucketList.mLevels i).setCurr curr with mSnap := snap } := by
    rw [hlist₄, hlist₃, hlist₂]
    simp [BucketList.setLevel]
  rw [setLevel, wp_modify]
  refine h.withLevel ⟨hok₄.named, hok₄.backed⟩ (fun x hx hfalse => ?_) (i := i)
    (l := { m₄.mBucketList.mLevels i with
      mNextCurr := FutureBucket.load (keep i) (has.currentBuckets i).next }) ?_ ?_ ?_
    fun x hload => ⟨i, hi, ?_⟩
  · obtain ⟨⟨hxs | hxc | hx', hxc'⟩, hxs'⟩ := hlax₄ x hx hfalse
    · exact absurd (hxs.trans (hsnap snap hs).symm) hxs'
    · exact absurd (hxc.trans (hcurr curr hc).symm) hxc'
    · exact hx'
  · rw [hlist₄, hlist₃, hlist₂]
    simp [BucketList.setLevel]
  · rw [hlevel₄]
    exact Or.inr (hcurr curr hc)
  · rw [hlevel₄]
    exact Or.inr (hsnap snap hs)
  · cases hn : (has.currentBuckets i).next with
    | FB_HASH_OUTPUT o =>
      rw [hn] at hload
      cases hload
      rfl
    | FB_CLEAR => rw [hn] at hload; cases hload
    | FB_HASH_INPUTS _ _ _ => rw [hn] at hload; cases hload

theorem getHashes_of_isMerging {next : FutureBucket E K} (h : next.isMerging = true) :
    next.getHashes sha256 = next.buckets.map (·.getHash sha256) := by
  cases next with
  | FB_LIVE_INPUTS _ _ _ _ => rfl
  | FB_CLEAR => cases h
  | FB_HASH_OUTPUT _ => cases h
  | FB_HASH_INPUTS _ _ _ _ => cases h
  | FB_LIVE_OUTPUT _ => cases h

/-- Making a merge live makes objects for its hashes only. -/
theorem Assuming.makeLive (h : Assuming sha256 has m) {next : FutureBucket E K}
    (hh : next.hasHashes = true) :
    wp (makeLive next) (fun next' m' =>
      (Aside sha256 m m' ∧ Lax (fun x => x ∈ next.getHashes sha256 ∨ Resolved has x) m') ∧
      next'.getHashes sha256 = next.getHashes sha256 ∧
      (next'.isMerging = true ∨ ∃ o, next = .FB_HASH_OUTPUT o)) (fun _ _ => True) m := by
  refine wp_makeLive hh (fun x hx m' h' => ?_)
    ⟨Aside.refl h.ok, fun x hx hs => Or.inr (h.lax x hx hs)⟩
  unfold fetch
  rw [wp_bind]
  refine wp_mono (lax_getBucketByHash h'.1.ok h'.2 x) (fun b? m'' h'' => ?_) fun _ _ h => h
  rw [wp_deref]
  refine ⟨fun b hb => ⟨⟨h'.1.trans h''.1.1.toAside, fun y hy hs => ?_⟩, h''.2 b hb⟩, fun _ => trivial⟩
  rcases h''.1.2 y hy hs with rfl | hy'
  · exact Or.inl hx
  · exact hy'

theorem Assuming.restartMerge (h : Assuming sha256 has m) (i : ℕ) :
    wp (restartMerge sha256 i) (fun _ m' => Assuming sha256 has m') (fun _ _ => True) m := by
  unfold BucketManager.restartMerge
  simp only [wp_bind, wp_get, wp_runIf, Bool.and_eq_true]
  refine ⟨fun hhash => ?_, fun _ => h⟩
  refine wp_mono (h.makeLive hhash.1) (fun next m₁ h₁ => ?_) fun _ _ h => h
  obtain ⟨⟨haside, hlax⟩, hhashes, hcases⟩ := h₁
  rw [wp_ite]
  constructor
  · -- all inputs are retained
    intro hm
    unfold startMerge
    rw [wp_bind, wp_modify]
    rw [← hhashes, getHashes_of_isMerging hm] at hlax
    have hok₁ : Ok sha256 { m₁ with
        mBucketList := m₁.mBucketList.setLevel i { m.mBucketList.mLevels i with mNextCurr := next }
        mergeComplete := Function.update m₁.mergeComplete i false } :=
      ⟨haside.ok.named, haside.ok.backed⟩
    refine wp_mono (lax_retainInputs hok₁ hlax) (fun _ m₂ h₂ => ?_) fun _ _ h => h
    refine h.withLevel h₂.1.ok h₂.2 (i := i) (l := { m.mBucketList.mLevels i with
      mNextCurr := next }) ?_ (h.curr i) (h.snap i) fun x hx => ?_
    · rw [h₂.1.list, haside.list]
    · have hx : next = .FB_HASH_OUTPUT x := hx
      rw [hx] at hm
      cases hm
  · -- the output is known
    intro hm
    obtain ⟨o, ho⟩ := hcases.resolve_left hm
    have hres : Resolved has o := h.next i o ho
    rw [ho] at hlax hhashes
    rw [setLevel, wp_modify]
    refine h.withLevel ⟨haside.ok.named, haside.ok.backed⟩ (fun x hx hs => ?_) (i := i)
      (l := { m.mBucketList.mLevels i with mNextCurr := next }) ?_ (h.curr i) (h.snap i)
      fun x hx => ?_
    · rcases hlax x hx hs with hxo | hx'
      · simp only [FutureBucket.getHashes, List.mem_singleton] at hxo
        rw [hxo]
        exact hres
      · exact hx'
    · rw [haside.list]
    · have hx : next = .FB_HASH_OUTPUT x := hx
      rw [hx] at hhashes
      simp only [FutureBucket.getHashes, List.cons.injEq, and_true] at hhashes
      rw [hhashes]
      exact hres

/-- **What a restart retains.** When a state has been assumed from a directory, only objects of
outputs of merges would remove their files. -/
theorem assumeState_retains (hok : Ok sha256 m) (hstart : m.mSharedBuckets = fun _ => none)
    (hlist : m.mBucketList = {}) :
    wp (assumeState sha256 has keep)
      (fun _ m' => ∀ h, h ≠ 0 → m'.mSharedBuckets h = some false → Resolved has h)
      (fun _ _ => True) m := by
  have h : Assuming sha256 has m := by
    refine ⟨hok, fun x _ hs => ?_, fun i => ?_, fun i => ?_, fun i x hx => ?_⟩
    · rw [hstart] at hs
      cases hs
    · rw [hlist]
      exact Or.inl rfl
    · rw [hlist]
      exact Or.inl rfl
    · rw [hlist] at hx
      cases hx
  unfold assumeState
  rw [wp_bind]
  refine wp_mono (wp_forM (I := Assuming sha256 has)
    (fun i hi m' h' => h'.assumeLevel (List.mem_range.mp hi)) h) (fun _ m₁ h₁ => ?_) fun _ _ h => h
  exact wp_mono (wp_forM (I := Assuming sha256 has) (fun i _ m' h' => h'.restartMerge i) h₁)
    (fun _ _ h' => h'.lax) fun _ _ h => h

end Retained

end BucketManager

namespace Retention

open BucketManager

/-! ## A node -/

/-- How far a process is in closing a ledger. -/
inductive Phase where
  | down
  | idle
  | added
  | stored
  | committed
deriving DecidableEq, Repr

structure Node (E K : Type) [Keyed E K] [LinearOrder K] where
  manager : BucketManager E K := {}
  /-- The state of the list that was last committed. -/
  has : Option HistoryArchiveState := none
  publishqueue : List (ℕ × HistoryArchiveState) := []
  ledgerSeq : ℕ := 0
  phase : Phase := .down
  /-- The state that the open transaction has written. -/
  written : Option HistoryArchiveState := none

/-- What a node does. `closeLedger` is the sequence from `addBatch` to `forgetUnreferencedBuckets`.
In between, and at any other time, workers complete merges, and buckets are asked for and adopted by
publications. -/
inductive Event (E K : Type) [Keyed E K] [LinearOrder K] where
  | loadLastKnownLedger (mKeepDeadEntries : ℕ → Bool)
  | addBatch (batch : Batch E K)
  | storeCurrent (ready : ℕ → Bool)
  | commit (queue : Bool)
  | forgetUnreferencedBuckets (held : Hash → Bool)
  | completeMerge (level : ℕ)
  | publishQueuedHistory
  | historyPublished (ledgerSeq : ℕ)
  | getBucketByHash (hash : Hash)
  | adoptFileAsBucket (b : Bucket E K)
  | shutdown
  | crash

namespace Node

/-- The states in the database. -/
def states (n : Node E K) : List HistoryArchiveState :=
  n.has.toList ++ n.publishqueue.map (·.2)

/-- The hashes whose files are needed later. -/
def needed (n : Node E K) : List Hash := n.states.flatMap (·.allBuckets)

/-- A fault of the code ends the process. -/
def call {ε α : Type} (n : Node E K) (x : ManagerM E K ε α) (phase : Phase) : Node E K :=
  match x n.manager with
  | .ok _ m => { n with manager := m, phase := phase }
  | .error _ m => { n with manager := m.crash, phase := .down }

/-- All needed files are in the directory. -/
def FilesKept (n : Node E K) : Prop := ∀ h ∈ n.needed, n.manager.HasFile h

/-- No object of a needed file would remove it. -/
def Retained (n : Node E K) : Prop :=
  ∀ h ∈ n.needed, h ≠ 0 → n.manager.mSharedBuckets h ≠ some false

end Node

section Steps

variable (sha256 : List (BucketEntry E K) → Hash)

/-- One event; `none` where the node does not do this. A node does not start by itself if files are
missing. The state that is committed has those of the completed merges resolved that are `ready`,
the one that is queued has none. -/
def step (n : Node E K) : Event E K → Option (Node E K)
  | .loadLastKnownLedger mKeepDeadEntries =>
    if n.phase = .down ∧ n.states.flatMap n.manager.checkForMissingBucketsFiles = [] then
      match n.has with
      | none => some { n with phase := .idle }
      | some has => some (n.call (BucketManager.assumeState sha256 has mKeepDeadEntries) .idle)
    else none
  | .addBatch batch =>
    if n.phase = .idle then
      some (n.call (addBatch sha256 (UInt32.ofNat (n.ledgerSeq + 1)) batch) .added)
    else none
  | .storeCurrent ready =>
    if n.phase = .added then
      some { n with
        written := some (n.manager.mBucketList.saveState (·.getHash sha256) fun i =>
          ready i && n.manager.mergeComplete i)
        phase := .stored }
    else none
  | .commit queue =>
    if n.phase = .stored then
      let has := n.manager.mBucketList.saveState (·.getHash sha256) fun _ => false
      some { n with
        has := n.written
        publishqueue := if queue then n.publishqueue ++ [(n.ledgerSeq + 1, has)] else n.publishqueue
        ledgerSeq := n.ledgerSeq + 1
        -- nothing is forgotten after the genesis ledger
        phase := if n.ledgerSeq = 0 then .idle else .committed }
    else none
  | .forgetUnreferencedBuckets held =>
    if n.phase = .committed then
      some { n with
        manager :=
          n.manager.forgetUnreferencedBuckets sha256 (n.publishqueue.map (·.2)) held
        phase := .idle }
    else none
  | .completeMerge level =>
    if n.phase ≠ .down then some (n.call (completeMerge sha256 level) n.phase) else none
  | .publishQueuedHistory =>
    if n.phase ≠ .down then
      match n.publishqueue.argmin (·.1) with
      | none => some n
      | some state => some (n.call (makeSnapshotLive sha256 state.2) n.phase)
    else none
  | .historyPublished ledgerSeq =>
    if n.phase = .idle then
      some { n with publishqueue := n.publishqueue.filter (·.1 ≠ ledgerSeq) }
    else none
  | .getBucketByHash hash =>
    if n.phase ≠ .down then some (n.call (ε := Unit) (getBucketByHash hash) n.phase) else none
  | .adoptFileAsBucket b =>
    if n.phase ≠ .down then some (n.call (ε := Unit) (adoptFileAsBucket sha256 b) n.phase) else none
  | .shutdown =>
    if n.phase ≠ .down then some { n with manager := n.manager.shutdown, phase := .down } else none
  | .crash =>
    if n.phase ≠ .down then some { n with manager := n.manager.crash, phase := .down } else none

/-- The events of a run, from a node with an empty database and an empty directory. -/
def run (events : List (Event E K)) : Option (Node E K) := events.foldlM (step sha256) {}

end Steps

theorem of_guard {α : Type} {p : Prop} [Decidable p] {x y : α}
    (h : (if p then some x else none) = some y) : p ∧ x = y := by
  simpa using h

variable {sha256 : List (BucketEntry E K) → Hash} {n n' : Node E K}

/-! ## The invariant -/

/-- The state that the list has been saved to and that is not protected otherwise. -/
def Node.saved (n : Node E K) : Option HistoryArchiveState :=
  match n.phase with
  | .stored => n.written
  | .committed => n.has
  | _ => none

/-- What was saved is still used by the list. -/
def Node.Carried (sha256 : List (BucketEntry E K) → Hash) (n : Node E K) : Prop :=
  ∀ has, n.saved = some has → ∀ h ∈ has.allBuckets, Uses sha256 n.manager h

structure Inv (sha256 : List (BucketEntry E K) → Hash) (n : Node E K) : Prop where
  down : n.phase = .down → ∃ dir, n.manager = { bucketDir := dir }
  ok : Ok sha256 n.manager
  used : ∀ h, Uses sha256 n.manager h → n.manager.HasFile h
  kept : n.FilesKept
  carried : n.Carried sha256

/-- There is no process, and needed files stay. -/
theorem inv_down {dir : Hash → Option (Bucket E K)}
    (hok : Ok sha256 ({ bucketDir := dir } : BucketManager E K))
    (hkept : ∀ h ∈ n.needed, ({ bucketDir := dir } : BucketManager E K).HasFile h) :
    Inv sha256 { n with manager := { bucketDir := dir }, phase := .down } := by
  refine ⟨fun _ => ⟨dir, rfl⟩, hok, fun x hx => ?_, hkept, fun has hs => by cases hs⟩
  rw [hasFile_of_uses_start hx]
  exact hasFile_zero

theorem inv_start : Inv sha256 ({} : Node E K) := by
  refine inv_down (n := {}) ⟨fun h b hb => ?_, fun h hs => ?_⟩ fun h hh => ?_
  · cases hb
  · cases hs
  · simp [Node.needed, Node.states] at hh

/-- The code of the manager keeps the invariant if it keeps what was saved. -/
theorem Inv.call {ε α : Type} {x : ManagerM E K ε α} {phase : Phase} (h : Inv sha256 n)
    (hup : phase ≠ .down) (hx : wp x (fun _ m' => Going sha256 n.manager m' ∧
      Node.Carried sha256 { n with manager := m', phase := phase })
      (fun _ m' => Safe sha256 n.manager m') n.manager) :
    Inv sha256 (n.call x phase) := by
  unfold wp at hx
  unfold Node.call
  cases hrun : x n.manager with
  | ok a m' =>
    rw [hrun] at hx
    exact ⟨fun hdown => absurd hdown hup, hx.1.ok, hx.1.used, fun y hy => hx.1.grown y (h.kept y hy), hx.2⟩
  | error e m' =>
    rw [hrun] at hx
    exact inv_down (ok_crash hx.ok) fun y hy => hx.grown y (h.kept y hy)

/-- Code that leaves the list as it is. -/
theorem Inv.aside {ε α : Type} {x : ManagerM E K ε α} (h : Inv sha256 n) (hup : n.phase ≠ .down)
    (hx : wp x (fun _ m' => Aside sha256 n.manager m') (fun _ m' => Safe sha256 n.manager m')
      n.manager) :
    Inv sha256 (n.call x n.phase) := by
  refine h.call hup (wp_mono hx (fun _ m' hm => ⟨?_, fun has hs y hy => ?_⟩) fun _ _ hm => hm)
  · exact Going.aside ⟨Safe.refl h.ok, h.used⟩ hm
  · exact (hm.uses y).mpr (h.carried has hs y hy)

/-! ## One step -/

theorem mem_needed {h : Hash} :
    h ∈ n.needed ↔ (∃ has, n.has = some has ∧ h ∈ has.allBuckets) ∨
      ∃ q ∈ n.publishqueue, h ∈ q.2.allBuckets := by
  simp only [Node.needed, Node.states, List.flatMap_append, List.mem_append, List.mem_flatMap,
    Option.mem_toList, List.mem_map]
  constructor
  · intro hh
    rcases hh with hh | ⟨has, ⟨q, hq, rfl⟩, hh⟩
    · exact Or.inl hh
    · exact Or.inr ⟨q, hq, hh⟩
  · intro hh
    rcases hh with hh | ⟨q, hq, hh⟩
    · exact Or.inl hh
    · exact Or.inr ⟨q.2, ⟨q, hq, rfl⟩, hh⟩

theorem Inv.storeCurrent (h : Inv sha256 n) {ready : ℕ → Bool} :
    Inv sha256 { n with
      written := some (n.manager.mBucketList.saveState (·.getHash sha256) fun i =>
        ready i && n.manager.mergeComplete i)
      phase := .stored } := by
  refine ⟨fun hdown => (by cases hdown), h.ok, h.used, h.kept, fun has hs y hy => ?_⟩
  cases hs
  exact uses_of_saveState (fun i hi => (Bool.and_eq_true_iff.mp hi).2) hy

theorem Inv.commit (h : Inv sha256 n) (hphase : n.phase = .stored) (queue : Bool) :
    step sha256 n (.commit queue) = some n' → Inv sha256 n' := by
  intro hstep
  simp only [step, hphase, if_true, Option.some.injEq] at hstep
  subst hstep
  have hwritten : ∀ has, n.written = some has → ∀ y ∈ has.allBuckets, Uses sha256 n.manager y := by
    intro has hs
    exact h.carried has (by simpa [Node.saved, hphase] using hs)
  refine ⟨fun hdown => ?_, h.ok, h.used, fun y hy => ?_, fun has hs => ?_⟩
  · simp only at hdown
    split_ifs at hdown
  · rcases mem_needed.mp hy with ⟨has, hs, hy⟩ | ⟨q, hq, hy⟩
    · exact h.used y (hwritten has hs y hy)
    · -- a state is queued as it is saved
      have hcases : q ∈ n.publishqueue ∨ q.2 =
          n.manager.mBucketList.saveState (·.getHash sha256) fun _ => false := by
        cases queue
        · exact Or.inl (by simpa using hq)
        · simp only [if_true, List.mem_append, List.mem_singleton] at hq
          rcases hq with hq | rfl
          · exact Or.inl hq
          · exact Or.inr rfl
      rcases hcases with hold | hnew
      · exact h.kept y (mem_needed.mpr (Or.inr ⟨q, hold, hy⟩))
      · rw [hnew] at hy
        exact h.used y (uses_of_saveState (fun i hi => by cases hi) hy)
  · refine hwritten has ?_
    simp only [Node.saved] at hs
    split_ifs at hs
    exact hs

theorem Inv.forget (h : Inv sha256 n) (hphase : n.phase = .committed) {held : Hash → Bool} :
    Inv sha256 { n with
      manager := n.manager.forgetUnreferencedBuckets sha256 (n.publishqueue.map (·.2)) held
      phase := .idle } := by
  obtain ⟨hok, -, hkept⟩ :=
    forgetUnreferencedBuckets_spec h.ok (n.publishqueue.map (·.2)) held
  refine ⟨fun hdown => (by cases hdown), hok, fun y hy => ?_, fun y hy => ?_, fun has hs => by cases hs⟩
  · have hu : Uses sha256 n.manager y := hy
    exact hkept y (Or.inl hu) (h.used y hu)
  · refine hkept y ?_ (h.kept y hy)
    rcases mem_needed.mp hy with ⟨has, hs, hy⟩ | ⟨q, hq, hy⟩
    · exact Or.inl (h.carried has (by simpa [Node.saved, hphase] using hs) y hy)
    · exact Or.inr ⟨q.2, List.mem_map_of_mem hq, hy⟩

/-- **One step.** Stopping a node is harmless if needed files are retained. -/
theorem Inv.step (h : Inv sha256 n) {e : Event E K} (hstep : step sha256 n e = some n')
    (hstop : e = .shutdown → n.phase ≠ .down → n.Retained) : Inv sha256 n' := by
  cases e with
  | loadLastKnownLedger keep =>
    simp only [Retention.step, Option.ite_none_right_eq_some] at hstep
    obtain ⟨⟨hphase, hmissing⟩, hstep⟩ := hstep
    split at hstep
    next hhas =>
      obtain rfl := Option.some.inj hstep
      exact ⟨fun hdown => (by cases hdown), h.ok, h.used, h.kept, fun has hs => by cases hs⟩
    next has hhas =>
      obtain rfl := Option.some.inj hstep
      have hfiles : ∀ y ∈ has.allBuckets, n.manager.HasFile y := fun y hy =>
        h.kept y (mem_needed.mpr (Or.inl ⟨has, hhas, hy⟩))
      exact h.call (by decide) (wp_mono (assumeState_spec h.ok h.used hfiles)
        (fun _ _ hm => ⟨hm, fun _ hs => by cases hs⟩) fun _ _ hm => hm.elim)
  | addBatch batch =>
    obtain ⟨-, rfl⟩ := of_guard hstep
    exact h.call (by decide) (wp_mono (BucketManager.addBatch_spec h.ok h.used batch)
      (fun _ _ hm => ⟨hm, fun _ hs => by cases hs⟩) fun _ _ hm => hm)
  | storeCurrent ready =>
    obtain ⟨-, rfl⟩ := of_guard hstep
    exact h.storeCurrent
  | commit queue =>
    have hphase : n.phase = .stored := by
      by_contra hne
      simp [Retention.step, hne] at hstep
    exact h.commit hphase queue hstep
  | forgetUnreferencedBuckets held =>
    obtain ⟨hphase, rfl⟩ := of_guard hstep
    exact h.forget hphase
  | completeMerge level =>
    obtain ⟨hup, rfl⟩ := of_guard hstep
    exact h.call hup (wp_mono (completeMerge_spec h.ok h.used level)
      (fun _ _ hm => ⟨hm.1, fun has hs y hy => hm.2 y (h.carried has hs y hy)⟩) fun _ _ hm => hm)
  | publishQueuedHistory =>
    simp only [Retention.step, Option.ite_none_right_eq_some] at hstep
    obtain ⟨hup, hstep⟩ := hstep
    cases hq : n.publishqueue.argmin (·.1) with
    | none =>
      simp only [hq, Option.some.injEq] at hstep
      subst hstep
      exact h
    | some q =>
      simp only [hq, Option.some.injEq] at hstep
      subst hstep
      have hfiles : ∀ y ∈ q.2.allBuckets, n.manager.HasFile y := fun y hy =>
        h.kept y (mem_needed.mpr (Or.inr ⟨q, List.argmin_mem hq, hy⟩))
      exact h.aside hup (wp_mono (makeSnapshotLive_spec h.ok hfiles) (fun _ _ hm => hm)
        fun _ _ hm => hm.elim)
  | historyPublished seq =>
    obtain ⟨hphase, rfl⟩ := of_guard hstep
    refine ⟨fun hdown => ?_, h.ok, h.used, fun y hy => h.kept y ?_, fun has hs => ?_⟩
    · rw [hphase] at hdown
      cases hdown
    · rcases mem_needed.mp hy with hhas | ⟨q, hq, hy⟩
      · exact mem_needed.mpr (Or.inl hhas)
      · exact mem_needed.mpr (Or.inr ⟨q, List.mem_of_mem_filter hq, hy⟩)
    · simp [Node.saved, hphase] at hs
  | getBucketByHash hash =>
    obtain ⟨hup, rfl⟩ := of_guard hstep
    exact h.aside hup (wp_mono (wp_getBucketByHash h.ok hash) (fun _ _ hm => hm.2.toAside)
      fun _ _ hm => hm)
  | adoptFileAsBucket b =>
    obtain ⟨hup, rfl⟩ := of_guard hstep
    exact h.aside hup (wp_mono (wp_adoptFileAsBucket h.ok b) (fun _ _ hm => hm.1) fun _ _ hm => hm)
  | shutdown =>
    obtain ⟨hup, rfl⟩ := of_guard hstep
    refine inv_down (ok_shutdown h.ok) fun y hy => ?_
    refine (hasFile_shutdown y).mpr ⟨h.kept y hy, ?_⟩
    by_cases hz : y = 0
    · exact Or.inl hz
    · exact Or.inr (hstop rfl hup y hy hz)
  | crash =>
    obtain ⟨-, rfl⟩ := of_guard hstep
    exact inv_down (ok_crash h.ok) h.kept

/-! ## What a node retains -/

/-- After a ledger has been closed the node may be stopped. -/
theorem retained_of_forget (h : Inv sha256 n) {held : Hash → Bool}
    (hstep : step sha256 n (.forgetUnreferencedBuckets held) = some n') : n'.Retained := by
  obtain ⟨-, rfl⟩ := of_guard hstep
  intro y _ _
  exact (forgetUnreferencedBuckets_spec h.ok (n.publishqueue.map (·.2)) held).2.1 y

/-- After a restart it may, unless the file of an output is needed. -/
theorem retained_of_start (h : Inv sha256 n) {keep : ℕ → Bool}
    (hstep : step sha256 n (.loadLastKnownLedger keep) = some n')
    (hno : ∀ has, n.has = some has → ∀ x ∈ n.needed, x ≠ 0 → ¬ Resolved has x) : n'.Retained := by
  simp only [step, Option.ite_none_right_eq_some] at hstep
  obtain ⟨⟨hphase, -⟩, hstep⟩ := hstep
  obtain ⟨dir, hdir⟩ := h.down hphase
  split at hstep
  next hhas =>
    obtain rfl := Option.some.inj hstep
    intro x _ _ hs
    rw [hdir] at hs
    cases hs
  next has hhas =>
    obtain rfl := Option.some.inj hstep
    have hretains : wp (BucketManager.assumeState sha256 has keep)
        (fun _ m' => ∀ x, x ≠ 0 → m'.mSharedBuckets x = some false → Resolved has x)
        (fun _ _ => True) n.manager :=
      assumeState_retains h.ok (by rw [hdir]) (by rw [hdir])
    unfold wp at hretains
    unfold Node.call
    cases hrun : BucketManager.assumeState sha256 has keep n.manager with
    | ok a m' =>
      rw [hrun] at hretains
      exact fun x hx hz hs => hno has hhas x hx hz (hretains x hz hs)
    | error e m' => exact fun x hx hz hs => by cases hs

/-! ## Runs -/

theorem run_concat (events : List (Event E K)) (e : Event E K) :
    run sha256 (events ++ [e]) = (run sha256 events).bind fun n => step sha256 n e := by
  simp [run, List.foldlM_append]

/-- **Needed files are kept iff they are retained whenever the node is stopped.** -/
theorem files_kept_iff (sha256 : List (BucketEntry E K) → Hash) (events : List (Event E K)) :
    (∀ before n, before <+: events → run sha256 before = some n → n.FilesKept) ↔
    ∀ before n, before ++ [.shutdown] <+: events → run sha256 before = some n → n.phase ≠ .down →
      n.Retained := by
  constructor
  · intro h before n hpre hrun hup y hy hz
    have hstopped := h (before ++ [.shutdown]) { n with manager := n.manager.shutdown, phase := .down }
      hpre (by rw [run_concat, hrun]; simp [step, hup])
    exact (((hasFile_shutdown y).mp (hstopped y hy)).2).resolve_left hz
  · intro h before n hpre hrun
    -- the invariant holds after every event before
    have hinv : Inv sha256 n := by
      induction before using List.reverseRecOn generalizing n with
      | nil =>
        cases hrun
        exact inv_start
      | append_singleton before e ih =>
        rw [run_concat, Option.bind_eq_some_iff] at hrun
        obtain ⟨n₁, hrun, hstep⟩ := hrun
        refine (ih n₁ ((List.prefix_append _ _).trans hpre) hrun).step hstep fun he hup => ?_
        rw [he] at hpre
        exact h before n₁ hpre hrun hup
    exact hinv.kept

/-- The node has just closed a ledger, or it has been started from a state with no output that is
needed. -/
def StopsSafely (sha256 : List (BucketEntry E K) → Hash) (events : List (Event E K)) : Prop :=
  ∃ before e, events = before ++ [e] ∧ ((∃ held, e = .forgetUnreferencedBuckets held) ∨
    ∃ keep n, e = .loadLastKnownLedger keep ∧ run sha256 before = some n ∧
      ∀ has, n.has = some has → ∀ x ∈ n.needed, x ≠ 0 → ¬ Resolved has x)

/-- **A node that is only stopped so** keeps the files that are needed. -/
theorem files_kept_of_stops {events : List (Event E K)}
    (hstops : ∀ before, before ++ [.shutdown] <+: events → StopsSafely sha256 before)
    (hrun : run sha256 events = some n) :
    Inv sha256 n ∧ (StopsSafely sha256 events → n.Retained) := by
  induction events using List.reverseRecOn generalizing n with
  | nil =>
    cases hrun
    refine ⟨inv_start, fun hsafe => ?_⟩
    obtain ⟨before, e, heq, -⟩ := hsafe
    simp at heq
  | append_singleton events e ih =>
    rw [run_concat, Option.bind_eq_some_iff] at hrun
    obtain ⟨n₁, hrun, hstep⟩ := hrun
    obtain ⟨hinv, hretained⟩ := ih (fun before hpre =>
      hstops before (hpre.trans (List.prefix_append _ _))) hrun
    have hstop : e = .shutdown → n₁.phase ≠ .down → n₁.Retained := by
      rintro rfl -
      exact hretained (hstops events (List.prefix_refl _))
    refine ⟨hinv.step hstep hstop, fun hsafe => ?_⟩
    obtain ⟨before, e', heq, hsafe⟩ := hsafe
    obtain ⟨rfl, rfl⟩ : events = before ∧ e = e' := by simpa using heq
    rcases hsafe with ⟨held, rfl⟩ | ⟨keep, n₂, rfl, hrun', hno⟩
    · exact retained_of_forget hinv hstep
    · obtain rfl := Option.some.inj (hrun.symm.trans hrun')
      exact retained_of_start hinv hstep hno

/-! ## A file that is lost -/

section Example

open Ledger

/-- A ledger with one new account. -/
def close (accountID : ℕ) : List (Event LedgerEntry LedgerKey) :=
  [.addBatch ⟨[⟨0, .account { accountID := accountID }⟩], []⟩, .storeCurrent fun _ => true,
    .commit false, .forgetUnreferencedBuckets fun _ => false]

/-- Five ledgers, then the node is stopped, started and stopped. The merge of level 1 that the
fourth ledger starts is complete when the state of the fifth is written. -/
def startAndStop : List (Event LedgerEntry LedgerKey) :=
  [.loadLastKnownLedger fun _ => true, .addBatch ⟨[⟨0, .account { accountID := 1 }⟩], []⟩,
    .storeCurrent fun _ => true, .commit false] ++
  close 2 ++ close 3 ++ close 4 ++ [.completeMerge 1] ++ close 5 ++
  [.shutdown, .loadLastKnownLedger fun _ => true, .shutdown]

/-- A hash that tells these buckets apart: the accounts are its digits. -/
def digits (entries : List (BucketEntry LedgerEntry LedgerKey)) : Hash :=
  entries.foldl (fun h e => 16 * h + match e with
    | .LIVEENTRY ⟨_, .account a⟩ => a.accountID
    | _ => 15) 0

/-- The bucket of the accounts 1, 2 and 3 is the output of the merge. -/
theorem output_lost : ∃ n, run digits startAndStop = some n ∧ ¬ n.FilesKept := by
  have h : (run digits startAndStop).map (fun n =>
      decide (0x123 ∈ n.needed) && (n.manager.bucketDir 0x123).isNone) = some true := by
    decide +kernel
  obtain ⟨n, hrun, hlost⟩ := Option.map_eq_some_iff.mp h
  rw [Bool.and_eq_true, decide_eq_true_eq] at hlost
  refine ⟨n, hrun, fun hkept => ?_⟩
  rcases hkept 0x123 hlost.1 with hz | hsome
  · cases hz
  · rw [Option.isNone_iff_eq_none.mp hlost.2] at hsome
    cases hsome

end Example

end Retention

end SmartCore.Buckets
