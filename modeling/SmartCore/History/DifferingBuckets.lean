import Mathlib.Data.Finset.Sort
import SmartCore.History.CatchupMinimal

/-!
# The buckets to fetch

`differingBuckets` names the buckets that turn one state of an archive into another, for a catchup
to fetch and for a publication to put. Of each level it names the two buckets and the output of the
merge. The merges of the other side that still run are waited for.

**Theorem (`differingBuckets_covers`).** No bucket is named twice, the zero bucket never, and with
the buckets of the other side every bucket is there that a level needs whose merge is clear or has
its output. A state that gives a merge by its inputs passes `futuresAllResolved`, but its inputs are
not fetched (`inputs_not_covered`).
-/

namespace SmartCore.History

open SCP (Hash)
open Buckets (kNumLevels)

namespace FutureBucket

def isMerging : FutureBucket → Bool
  | FB_LIVE_INPUTS .. => true
  | _ => false

/-- All hashes referenced by this future. Outputs come without the inputs they were made from. -/
def getHashes : FutureBucket → List Hash
  | FB_CLEAR => []
  | FB_HASH_OUTPUT output => [output]
  | FB_HASH_INPUTS curr snap shadow => curr :: snap :: shadow
  | FB_LIVE_OUTPUT output => [output.mHash]
  | FB_LIVE_INPUTS curr snap shadow => curr.mHash :: snap.mHash :: shadow.map (·.mHash)

/-- The merge gives `bucket`, and its inputs are forgotten. -/
def resolve (bucket : Bucket) : FutureBucket → FutureBucket
  | FB_LIVE_INPUTS .. => FB_LIVE_OUTPUT bucket
  | fb => fb

/-- The merge is only known by the hashes of its inputs. -/
def hasInputHashes : FutureBucket → Bool
  | FB_HASH_INPUTS .. => true
  | _ => false

theorem getHashes_eq {fb : FutureBucket} (hmerging : fb.isMerging = false)
    (hinputs : fb.hasInputHashes = false) : fb.getHashes = fb.outputHash?.toList := by
  cases fb with
  | FB_CLEAR => rfl
  | FB_HASH_OUTPUT output => rfl
  | FB_HASH_INPUTS curr snap shadow => cases hinputs
  | FB_LIVE_OUTPUT output => rfl
  | FB_LIVE_INPUTS curr snap shadow => cases hmerging

end FutureBucket

namespace HistoryArchiveState

/-- All futures have already been resolved, or are not running. -/
def futuresAllResolved (has : HistoryArchiveState) : Bool :=
  has.currentBuckets.all fun level => !level.next.isMerging

/-- The merge of level `i` gives `merged i`. -/
def resolveAllFutures (merged : ℕ → Bucket) (has : HistoryArchiveState) : HistoryArchiveState :=
  { has with
    currentBuckets := has.currentBuckets.mapIdx fun i level =>
      { level with next := level.next.resolve (merged i) } }

/-- `differingBuckets` on states whose futures may be live. Those of `other` are resolved in copies
of its levels. There is an assertion that those of `has` are resolved. -/
def differingBucketsLive (merged : ℕ → Bucket) (has other : HistoryArchiveState) :
    Option (List Hash) :=
  if has.futuresAllResolved then has.differingBuckets (other.resolveAllFutures merged) else none

/-- All buckets referenced by this state, as a sorted set. -/
def allBuckets (has : HistoryArchiveState) : List Hash :=
  (has.currentBuckets.flatMap fun level =>
    level.curr :: level.snap :: level.next.getHashes).toFinset.sort (· ≤ ·)

/-- The buckets that the state refers to, with the outputs of its merges. -/
def referredTo (merged : ℕ → Bucket) (has : HistoryArchiveState) : List Hash :=
  (has.resolveAllFutures merged).currentBuckets.flatMap fun b =>
    b.curr :: b.next.outputHash?.toList ++ [b.snap]

theorem mem_allBuckets {has : HistoryArchiveState} {h : Hash} :
    h ∈ has.allBuckets ↔ ∃ level ∈ has.currentBuckets,
      h = level.curr ∨ h = level.snap ∨ h ∈ level.next.getHashes := by
  simp [allBuckets]

end HistoryArchiveState

/-! ## What is picked -/

/-- `acc` is what is inhibited and what has been picked, after some of the hashes in `seen`. -/
structure Picked (inhibit seen : List Hash) (acc : List Hash × List Hash) : Prop where
  nodup : acc.2.Nodup
  inhibited : ∀ h, h ∈ acc.1 ↔ h ∈ inhibit ∨ h ∈ acc.2
  picked : ∀ h, h ∈ acc.2 ↔ h ∈ seen ∧ h ∉ inhibit

open HistoryArchiveState

theorem Picked.step {inhibit seen : List Hash} {acc : List Hash × List Hash}
    (hp : Picked inhibit seen acc) (j : Hash) :
    Picked inhibit (seen ++ [j]) (addDiffering acc j) := by
  unfold addDiffering
  by_cases hj : j ∈ acc.1
  · rw [if_pos hj]
    refine ⟨hp.nodup, hp.inhibited, fun h => ?_⟩
    have hold := hp.picked h
    have hseen := (hp.inhibited j).mp hj
    have hpicked := hp.picked j
    rw [List.mem_append, List.mem_singleton]
    by_cases heq : h = j
    · subst heq
      tauto
    · tauto
  · rw [if_neg hj]
    have hnew : j ∉ inhibit ∧ j ∉ acc.2 := by
      have hin := hp.inhibited j
      tauto
    refine ⟨?_, fun h => ?_, fun h => ?_⟩
    · rw [List.nodup_append]
      refine ⟨hp.nodup, List.nodup_singleton j, fun a ha b hb heq => ?_⟩
      obtain rfl := List.mem_singleton.mp hb
      exact hnew.2 (heq ▸ ha)
    · have hin := hp.inhibited h
      rw [List.mem_cons, List.mem_append, List.mem_singleton]
      tauto
    · have hold := hp.picked h
      rw [List.mem_append, List.mem_append, List.mem_singleton]
      by_cases heq : h = j
      · subst heq
        tauto
      · tauto

theorem Picked.run {inhibit seen : List Hash} {acc : List Hash × List Hash}
    (hp : Picked inhibit seen acc) (wanted : List Hash) :
    Picked inhibit (seen ++ wanted) (wanted.foldl addDiffering acc) := by
  induction wanted generalizing seen acc with
  | nil => simpa using hp
  | cons j wanted ih =>
    have hrest := ih (hp.step j)
    rwa [List.append_assoc] at hrest

theorem picked_foldl (inhibit wanted : List Hash) :
    Picked inhibit wanted (wanted.foldl addDiffering (inhibit, [])) :=
  have hstart : Picked inhibit [] (inhibit, []) :=
    ⟨List.nodup_nil, fun h => by simp, fun h => by simp⟩
  hstart.run wanted

/-! ## Enough is fetched -/

section Covers

variable {merged : ℕ → Bucket} {has other : HistoryArchiveState} {r : List Hash}

/-- What is named is what the levels need and neither is zero nor the other side's. -/
theorem mem_differingBuckets (h : has.differingBucketsLive merged other = some r) :
    r.Nodup ∧ ∀ j, j ∈ r ↔ (∃ level ∈ has.currentBuckets.take kNumLevels,
      j = level.curr ∨ j = level.snap ∨ j ∈ level.next.outputHash?) ∧
        j ≠ 0 ∧ j ∉ other.referredTo merged := by
  unfold differingBucketsLive differingBuckets at h
  split_ifs at h
  have hpicked := picked_foldl
    (0 :: other.referredTo merged)
    ((has.currentBuckets.take kNumLevels).reverse.flatMap fun level =>
      [level.snap, level.next.outputHash?.getD level.snap, level.curr])
  obtain rfl := Option.some.inj h
  refine ⟨hpicked.nodup, fun j => (hpicked.picked j).trans (and_congr ?_ ?_)⟩
  · rw [List.mem_flatMap]
    refine exists_congr fun level => and_congr List.mem_reverse ?_
    cases level.next.outputHash? with
    | none =>
      simp only [List.mem_cons, Option.getD_none, List.not_mem_nil, Option.not_mem_none]
      tauto
    | some output =>
      simp only [List.mem_cons, Option.getD_some, List.not_mem_nil, Option.mem_some_iff]
      tauto
  · rw [List.mem_cons, not_or]

theorem differingBucketsLive_isSome :
    (has.differingBucketsLive merged other).isSome ↔
      has.futuresAllResolved ∧ kNumLevels ≤ has.currentBuckets.length := by
  unfold differingBucketsLive differingBuckets
  split_ifs with hresolved hfew
  · simp [hfew]
  · simp [hresolved, not_lt.mp hfew]
  · simp [hresolved]

theorem not_isMerging (h : has.differingBucketsLive merged other = some r)
    {level : HistoryStateBucket} (hlevel : level ∈ has.currentBuckets) :
    level.next.isMerging = false := by
  have hsome : (has.differingBucketsLive merged other).isSome := by
    rw [h]
    rfl
  have hall := (differingBucketsLive_isSome.mp hsome).1
  have hone := List.all_eq_true.mp hall level hlevel
  simpa using hone

end Covers

variable {Db : Type}

theorem fetch_isOk {node : Node Db} {h : Hash} (hh : (node.getBucketByHash h).isSome) :
    ∃ b, CatchupMinimalWork.fetch node h = .ok b := by
  obtain ⟨b, hb⟩ := Option.isSome_iff_exists.mp hh
  refine ⟨b, ?_⟩
  unfold CatchupMinimalWork.fetch
  rw [hb]
  rfl

/-- A merge whose output is there, or that is clear, can be made live. -/
theorem makeLive_isOk {node : Node Db} {fb : FutureBucket} (hinputs : fb.hasInputHashes = false)
    (hall : ∀ h ∈ fb.getHashes, (node.getBucketByHash h).isSome) :
    ∃ fb', CatchupMinimalWork.makeLive node fb = .ok fb' := by
  cases fb with
  | FB_HASH_OUTPUT output =>
    obtain ⟨b, hb⟩ := fetch_isOk (hall output List.mem_cons_self)
    refine ⟨.FB_LIVE_OUTPUT b, ?_⟩
    simp only [CatchupMinimalWork.makeLive, hb]
    rfl
  | FB_HASH_INPUTS curr snap shadow => cases hinputs
  | FB_CLEAR => exact ⟨_, rfl⟩
  | FB_LIVE_OUTPUT output => exact ⟨_, rfl⟩
  | FB_LIVE_INPUTS curr snap shadow => exact ⟨_, rfl⟩

/-- The state can be assumed: its buckets are there, and its merges can be restarted. -/
structure Assumable (has : HistoryArchiveState) (node : Node Db) : Prop where
  found : ∀ h ∈ has.allBuckets, (node.getBucketByHash h).isSome
  restarted : ∀ level ∈ has.currentBuckets,
    ∃ fb, CatchupMinimalWork.makeLive node level.next = .ok fb

/-- **Main theorem.** `differingBuckets` gives a result if no merge of `has` is running and there
are levels enough to read. What it names, with the buckets of `other`, is enough for the levels that
are read, and for the whole state if it has no more levels and no merge is given by its inputs. -/
theorem differingBuckets_covers (merged : ℕ → Bucket) (has other : HistoryArchiveState) :
    ((has.differingBucketsLive merged other).isSome ↔
      has.futuresAllResolved ∧ kNumLevels ≤ has.currentBuckets.length) ∧
    ∀ r, has.differingBucketsLive merged other = some r →
      r.Nodup ∧ 0 ∉ r ∧
      (∀ level ∈ has.currentBuckets.take kNumLevels, ∀ h, h ≠ 0 →
        h = level.curr ∨ h = level.snap ∨ h ∈ level.next.outputHash? →
          h ∈ r ∨ h ∈ other.referredTo merged) ∧
      (has.currentBuckets.length = kNumLevels →
        (∀ level ∈ has.currentBuckets, level.next.hasInputHashes = false) →
        (∀ h ∈ has.allBuckets, h ≠ 0 → h ∈ r ∨ h ∈ other.referredTo merged) ∧
        ∀ (Db : Type) (node : Node Db),
          (∀ h, h ∈ r ∨ h ∈ other.referredTo merged → (node.getBucketByHash h).isSome) →
            Assumable has node) := by
  refine ⟨differingBucketsLive_isSome, fun r hr => ?_⟩
  obtain ⟨hnodup, hmem⟩ := mem_differingBuckets hr
  have hcovers : ∀ level ∈ has.currentBuckets.take kNumLevels, ∀ h, h ≠ 0 →
      h = level.curr ∨ h = level.snap ∨ h ∈ level.next.outputHash? →
        h ∈ r ∨ h ∈ other.referredTo merged := by
    intro level hlevel h hne hneeded
    by_cases hother : h ∈ other.referredTo merged
    · exact Or.inr hother
    · exact Or.inl ((hmem h).mpr ⟨⟨level, hlevel, hneeded⟩, hne, hother⟩)
  refine ⟨hnodup, fun hzero => ((hmem 0).mp hzero).2.1 rfl, hcovers, fun hlen hinputs => ?_⟩
  have htake : has.currentBuckets.take kNumLevels = has.currentBuckets :=
    List.take_of_length_le hlen.le
  rw [htake] at hcovers
  have hall : ∀ h ∈ has.allBuckets, h ≠ 0 → h ∈ r ∨ h ∈ other.referredTo merged := by
    intro h hh hne
    obtain ⟨level, hlevel, hneeded⟩ := mem_allBuckets.mp hh
    have houtput := FutureBucket.getHashes_eq (not_isMerging hr hlevel) (hinputs level hlevel)
    rw [houtput, Option.mem_toList] at hneeded
    exact hcovers level hlevel h hne hneeded
  refine ⟨hall, fun Db node hnode => ?_⟩
  have hfound : ∀ h ∈ has.allBuckets, (node.getBucketByHash h).isSome := by
    intro h hh
    by_cases hzero : h = 0
    · unfold Node.getBucketByHash
      rw [dif_pos hzero]
      rfl
    · exact hnode h (hall h hh hzero)
  refine ⟨hfound, fun level hlevel => ?_⟩
  apply makeLive_isOk (hinputs level hlevel)
  exact fun h hh => hfound h (mem_allBuckets.mpr ⟨level, hlevel, Or.inr (Or.inr hh)⟩)

/-- The state before any ledger. -/
def emptyState : HistoryArchiveState where
  currentBuckets := List.replicate kNumLevels { curr := 0, snap := 0 }

/-- A merge of the youngest level is given by its output. -/
def outputState : HistoryArchiveState where
  currentBuckets := { curr := 1, next := .FB_HASH_OUTPUT 3, snap := 2 } ::
    List.replicate 10 { curr := 0, snap := 0 }

theorem differingBuckets_covers_outputState :
    [2, 3, 1].Nodup ∧ ∀ h ∈ outputState.allBuckets, h ≠ 0 →
      h ∈ [2, 3, 1] ∨ h ∈ emptyState.referredTo fun _ => {} := by
  have hresult : outputState.differingBucketsLive (fun _ => {}) emptyState = some [2, 3, 1] := by
    decide +kernel
  obtain ⟨hnodup, -, -, hcovers⟩ :=
    (differingBuckets_covers (fun _ => {}) outputState emptyState).2 [2, 3, 1] hresult
  exact ⟨hnodup, (hcovers rfl (by decide)).1⟩

/-- A merge of the youngest level is given by its inputs. -/
def inputsState : HistoryArchiveState where
  currentBuckets := { curr := 1, next := .FB_HASH_INPUTS 3 4 [5], snap := 2 } ::
    List.replicate 10 { curr := 0, snap := 0 }

/-- There is a bucket in every level. -/
def fullState : HistoryArchiveState where
  currentBuckets := List.replicate kNumLevels { curr := 1, snap := 2 }

/-- The inputs of a merge are not fetched, and without them it cannot be restarted. The zero bucket,
which is in a state without any bucket, is not covered either where the other side has none. -/
theorem inputs_not_covered :
    (inputsState.loads ∧ 3 ∈ inputsState.allBuckets ∧
      inputsState.differingBucketsLive (fun _ => {}) emptyState = some [2, 1] ∧
      3 ∉ emptyState.referredTo (fun _ => {}) ∧
      ∃ node : Node Unit,
        (∀ h, h ∈ [2, 1] ∨ h ∈ emptyState.referredTo (fun _ => {}) →
          (node.getBucketByHash h).isSome) ∧ ¬ Assumable inputsState node) ∧
    (0 ∈ emptyState.allBuckets ∧
      emptyState.differingBucketsLive (fun _ => {}) fullState = some [] ∧
      0 ∉ fullState.referredTo fun _ => {}) := by
  have hinput : 3 ∈ inputsState.allBuckets :=
    mem_allBuckets.mpr ⟨_, List.mem_cons_self, Or.inr (Or.inr List.mem_cons_self)⟩
  have hzero : ∀ j ∈ emptyState.referredTo (fun _ => {}), j = 0 := by decide +kernel
  refine ⟨⟨by decide, hinput, by decide +kernel, ?_, ?_⟩, ?_, by decide +kernel, by decide +kernel⟩
  · intro hmem
    cases hzero 3 hmem
  · refine ⟨⟨fun h => if h = 1 ∨ h = 2 then some [] else none, fun _ => {}, ()⟩, ?_, ?_⟩
    · intro h hh
      have hcases : h = 0 ∨ h = 1 ∨ h = 2 := by
        rcases hh with hh | hh
        · simp only [List.mem_cons, List.not_mem_nil] at hh
          tauto
        · exact Or.inl (hzero h hh)
      rcases hcases with rfl | rfl | rfl <;> rfl
    · intro hassumable
      have hfound := hassumable.found 3 hinput
      cases hfound
  · exact mem_allBuckets.mpr ⟨_, List.mem_cons_self, Or.inl rfl⟩

end SmartCore.History
