import SmartCore.SCP.Types
import Mathlib.Data.List.Count
import Mathlib.Logic.Function.Iterate

/-!
# Quorum sets of the local node

`LocalNode` decides three questions about a quorum set and a list of nodes: whether the nodes
contain a slice (`isQuorumSlice`), whether they block every slice (`isVBlocking`), and whether
the nodes whose statements pass a filter contain a quorum (`isQuorum`).

All three count hits down from a threshold with the code's own machine integers. The count
reaches its end when there are enough hits, so a larger set of nodes always scores at least as
well (`isQuorumSlice_mono`, `isVBlocking_mono`).

`isQuorum` shrinks the filtered nodes until every one that is left has a slice among the rest.
`isQuorum_iff` says what that loop decides: whether the filtered nodes contain *some* set that
is closed in this sense and holds a slice of the local quorum set.
-/

namespace SmartCore.SCP

/-! ## Counting down -/

/-- Decrement `left` once for every hit; answer `true` as soon as it is not positive. -/
def countdown {R : Type} [Sub R] [One R] [Zero R] [LE R] [DecidableLE R] : List Bool → R → Bool
  | [], _ => false
  | true :: hits, left => if left - 1 ≤ 0 then true else countdown hits (left - 1)
  | false :: hits, left => countdown hits left

section Countdown

variable {R : Type} [Sub R] [One R] [Zero R] [LE R] [DecidableLE R]

/-- The countdown ends iff one of its first `hits.count true` decrements ends it. -/
theorem countdown_iff {hits : List Bool} {left : R} :
    countdown hits left = true ↔
      ∃ k, k + 1 ≤ hits.count true ∧ (fun x : R => x - 1)^[k + 1] left ≤ 0 := by
  induction hits generalizing left with
  | nil => simp [countdown]
  | cons hit hits ih =>
    cases hit with
    | false => simpa [countdown] using ih
    | true =>
      unfold countdown
      split_ifs with h
      · simpa using ⟨0, Nat.zero_le _, h⟩
      · rw [ih]
        constructor
        · rintro ⟨k, hk, hle⟩
          exact ⟨k + 1, by simpa using hk, hle⟩
        · rintro ⟨k, hk, hle⟩
          cases k with
          | zero => exact absurd hle h
          | succ k => exact ⟨k, by simpa using hk, hle⟩

theorem countdown_mono {hits hits' : List Bool} {left : R}
    (h : hits.count true ≤ hits'.count true) (hc : countdown hits left = true) :
    countdown hits' left = true := by
  rw [countdown_iff] at hc ⊢
  obtain ⟨k, hk, hle⟩ := hc
  exact ⟨k, hk.trans h, hle⟩

end Countdown

/-- Pointwise more hits are more hits. -/
theorem count_map_le {α : Type} {f g : α → Bool} (l : List α)
    (h : ∀ a ∈ l, f a = true → g a = true) : (l.map f).count true ≤ (l.map g).count true := by
  induction l with
  | nil => simp
  | cons a l ih =>
    have htail := ih fun b hb => h b (by simp [hb])
    have hhead := h a (by simp)
    cases hf : f a <;> cases hg : g a <;> simp_all
    omega

/-! ## Slices and v-blocking sets -/

mutual

/-- Does `nodeSet` contain a slice of the quorum set? The code stops at the first moment the
threshold is reached; inner sets it did not get to have no influence on the answer. -/
def isQuorumSliceInternal (nodeSet : List NodeID) : SCPQuorumSet → Bool
  | .mk threshold validators innerSets =>
    countdown (validators.map (fun validator => nodeSet.contains validator) ++
      innerSlices nodeSet innerSets) threshold

/-- Which of the inner sets have a slice in `nodeSet`. -/
def innerSlices (nodeSet : List NodeID) : List SCPQuorumSet → List Bool
  | [] => []
  | q :: qs => isQuorumSliceInternal nodeSet q :: innerSlices nodeSet qs

end

def isQuorumSlice (qSet : SCPQuorumSet) (nodeSet : List NodeID) : Bool :=
  isQuorumSliceInternal nodeSet qSet

mutual

/-- Does `nodeSet` meet every slice of the quorum set? `leftTillBlock` is a signed 32-bit
integer converted from a `size_t`. -/
def isVBlockingInternal (nodeSet : List NodeID) : SCPQuorumSet → Bool
  | .mk threshold validators innerSets =>
    -- there is no v-blocking set for the empty quorum set
    if threshold = 0 then false
    else
      countdown (validators.map (fun validator => nodeSet.contains validator) ++
        innerVBlocking nodeSet innerSets)
        (Int.bmod (1 + validators.length + innerSets.length - threshold.val : ℤ) (2 ^ 32))

/-- Which of the inner sets are blocked by `nodeSet`. -/
def innerVBlocking (nodeSet : List NodeID) : List SCPQuorumSet → List Bool
  | [] => []
  | q :: qs => isVBlockingInternal nodeSet q :: innerVBlocking nodeSet qs

end

def isVBlocking (qSet : SCPQuorumSet) (nodeSet : List NodeID) : Bool :=
  isVBlockingInternal nodeSet qSet

section Mono

variable {A B : List NodeID}

theorem contains_mono (hAB : A ⊆ B) (n : NodeID) (h : A.contains n = true) :
    B.contains n = true := by
  simp only [List.contains_iff_mem] at h ⊢
  exact hAB h

mutual

theorem isQuorumSliceInternal_mono (hAB : A ⊆ B) (q : SCPQuorumSet)
    (h : isQuorumSliceInternal A q = true) : isQuorumSliceInternal B q = true := by
  cases q with
  | mk t v i =>
    unfold isQuorumSliceInternal at h ⊢
    refine countdown_mono ?_ h
    rw [List.count_append, List.count_append]
    exact Nat.add_le_add (count_map_le v fun n _ => contains_mono hAB n)
      (innerSlices_mono hAB i)

theorem innerSlices_mono (hAB : A ⊆ B) (qs : List SCPQuorumSet) :
    (innerSlices A qs).count true ≤ (innerSlices B qs).count true := by
  cases qs with
  | nil => simp [innerSlices]
  | cons q qs =>
    have hq := isQuorumSliceInternal_mono hAB q
    have hqs := innerSlices_mono hAB qs
    unfold innerSlices
    cases h : isQuorumSliceInternal A q <;> simp_all [List.count_cons]
    omega

end

mutual

theorem isVBlockingInternal_mono (hAB : A ⊆ B) (q : SCPQuorumSet)
    (h : isVBlockingInternal A q = true) : isVBlockingInternal B q = true := by
  cases q with
  | mk t v i =>
    unfold isVBlockingInternal at h ⊢
    split_ifs at h ⊢ with ht
    refine countdown_mono ?_ h
    rw [List.count_append, List.count_append]
    exact Nat.add_le_add (count_map_le v fun n _ => contains_mono hAB n)
      (innerVBlocking_mono hAB i)

theorem innerVBlocking_mono (hAB : A ⊆ B) (qs : List SCPQuorumSet) :
    (innerVBlocking A qs).count true ≤ (innerVBlocking B qs).count true := by
  cases qs with
  | nil => simp [innerVBlocking]
  | cons q qs =>
    have hq := isVBlockingInternal_mono hAB q
    have hqs := innerVBlocking_mono hAB qs
    unfold innerVBlocking
    cases h : isVBlockingInternal A q <;> simp_all [List.count_cons]
    omega

end

/-- A larger set of nodes contains every slice a smaller one does. -/
theorem isQuorumSlice_mono (hAB : A ⊆ B) {q : SCPQuorumSet} (h : isQuorumSlice q A = true) :
    isQuorumSlice q B = true :=
  isQuorumSliceInternal_mono hAB q h

/-- A larger set of nodes blocks every quorum set a smaller one does. -/
theorem isVBlocking_mono (hAB : A ⊆ B) {q : SCPQuorumSet} (h : isVBlocking q A = true) :
    isVBlocking q B = true :=
  isVBlockingInternal_mono hAB q h

end Mono

section Empty

theorem countdown_all_false {R : Type} [Sub R] [One R] [Zero R] [LE R] [DecidableLE R]
    {hits : List Bool} {left : R} (h : ∀ hit ∈ hits, hit = false) :
    countdown hits left = false := by
  induction hits with
  | nil => rfl
  | cons hit hits ih =>
    obtain rfl := h hit (by simp)
    exact ih fun hit' h' => h hit' (by simp [h'])

mutual

theorem isQuorumSliceInternal_nil (q : SCPQuorumSet) : isQuorumSliceInternal [] q = false := by
  cases q with
  | mk t v i =>
    unfold isQuorumSliceInternal
    refine countdown_all_false fun hit hmem => ?_
    rcases List.mem_append.mp hmem with h | h
    · exact (by simpa using h : v ≠ [] ∧ hit = false).2
    · exact innerSlices_nil i hit h

theorem innerSlices_nil (qs : List SCPQuorumSet) : ∀ hit ∈ innerSlices [] qs, hit = false := by
  cases qs with
  | nil => simp [innerSlices]
  | cons q qs =>
    intro hit hmem
    unfold innerSlices at hmem
    rcases List.mem_cons.mp hmem with rfl | h
    · exact isQuorumSliceInternal_nil q
    · exact innerSlices_nil qs hit h

end

mutual

theorem isVBlockingInternal_nil (q : SCPQuorumSet) : isVBlockingInternal [] q = false := by
  cases q with
  | mk t v i =>
    unfold isVBlockingInternal
    split_ifs with ht
    · rfl
    · refine countdown_all_false fun hit hmem => ?_
      rcases List.mem_append.mp hmem with h | h
      · exact (by simpa using h : v ≠ [] ∧ hit = false).2
      · exact innerVBlocking_nil i hit h

theorem innerVBlocking_nil (qs : List SCPQuorumSet) :
    ∀ hit ∈ innerVBlocking [] qs, hit = false := by
  cases qs with
  | nil => simp [innerVBlocking]
  | cons q qs =>
    intro hit hmem
    unfold innerVBlocking at hmem
    rcases List.mem_cons.mp hmem with rfl | h
    · exact isVBlockingInternal_nil q
    · exact innerVBlocking_nil qs hit h

end

/-- Nobody is no slice. -/
theorem isQuorumSlice_nonempty {q : SCPQuorumSet} {A : List NodeID}
    (h : isQuorumSlice q A = true) : ∃ n, n ∈ A := by
  cases A with
  | nil => simp [isQuorumSlice, isQuorumSliceInternal_nil] at h
  | cons n A => exact ⟨n, by simp⟩

/-- Nobody blocks nothing. -/
theorem isVBlocking_nonempty {q : SCPQuorumSet} {A : List NodeID}
    (h : isVBlocking q A = true) : ∃ n, n ∈ A := by
  cases A with
  | nil => simp [isVBlocking, isVBlockingInternal_nil] at h
  | cons n A => exact ⟨n, by simp⟩

end Empty

/-! ## Sane quorum sets -/

/-- Insert the validators into the set of known nodes, failing on the first repeated one. -/
def insertNodes : List NodeID → List NodeID → Option (List NodeID)
  | [], knownNodes => some knownNodes
  | n :: v, knownNodes => if n ∈ knownNodes then none else insertNodes v (n :: knownNodes)

mutual

/-- `none` when the set is not sane, otherwise the nodes known after it. -/
def isQuorumSetSaneInternal (extraChecks : Bool) :
    SCPQuorumSet → List NodeID → Option (List NodeID)
  | .mk threshold v i, knownNodes =>
    let totEntries := v.length + i.length
    -- the source computes this before it knows that the threshold is in range, in `size_t`;
    -- it reads it only once the threshold is
    let vBlockingSize := totEntries - threshold.val + 1
    if 1 ≤ threshold.val ∧ threshold.val ≤ totEntries ∧
        (extraChecks = false ∨ vBlockingSize ≤ threshold.val) then
      (insertNodes v knownNodes).bind (innerSetsSane extraChecks i)
    else none

/-- The inner sets, one after the other. -/
def innerSetsSane (extraChecks : Bool) : List SCPQuorumSet → List NodeID → Option (List NodeID)
  | [], knownNodes => some knownNodes
  | q :: qs, knownNodes =>
    (isQuorumSetSaneInternal extraChecks q knownNodes).bind (innerSetsSane extraChecks qs)

end

def isQuorumSetSane (qSet : SCPQuorumSet) (extraChecks : Bool) : Bool :=
  (isQuorumSetSaneInternal extraChecks qSet []).isSome

/-- `{t: 1, v: [nodeID]}`. -/
def getSingletonQSet (nodeID : NodeID) : SCPQuorumSet :=
  .mk 1 [nodeID] []

theorem isQuorumSetSane_singleton (n : NodeID) :
    isQuorumSetSane (getSingletonQSet n) false = true := by
  simp [isQuorumSetSane, getSingletonQSet, isQuorumSetSaneInternal, insertNodes, innerSetsSane]

/-! ## Quorums among recorded statements -/

/-- The latest envelope of every node. -/
abbrev EnvelopeMap := Std.ExtTreeMap NodeID SCPEnvelope

/-- The nodes whose statement passes the filter. -/
def filterNodes (map : EnvelopeMap) (filter : SCPStatement → Bool) : List NodeID :=
  (map.toList.filter fun it => filter it.2.statement).map Prod.fst

theorem mem_filterNodes {map : EnvelopeMap} {filter : SCPStatement → Bool} {n : NodeID} :
    n ∈ filterNodes map filter ↔ ∃ env, map[n]? = some env ∧ filter env.statement = true := by
  simp [filterNodes, Std.ExtTreeMap.mem_toList_iff_getElem?_eq_some]

/-- The overload of `isVBlocking` on a map of envelopes. -/
def isVBlockingMap (qSet : SCPQuorumSet) (map : EnvelopeMap) (filter : SCPStatement → Bool) :
    Bool :=
  isVBlocking qSet (filterNodes map filter)

/-- Does the node's own quorum set have a slice among `pNodes`? The source dereferences the
quorum set; a recorded statement always has one, because it passed `isStatementSane`. -/
def quorumFilter (map : EnvelopeMap) (qfun : SCPStatement → Option SCPQuorumSet)
    (pNodes : List NodeID) (nodeID : NodeID) : Bool :=
  ((map[nodeID]?).bind fun env => qfun env.statement).any fun q => isQuorumSlice q pNodes

/-- The `do … while (count != pNodes.size())` loop. Every round but the last drops a node, so
`pNodes.length + 1` rounds are enough. -/
def shrink (keep : List NodeID → NodeID → Bool) : ℕ → List NodeID → List NodeID
  | 0, pNodes => pNodes
  | fuel + 1, pNodes =>
    let fNodes := pNodes.filter (keep pNodes)
    if fNodes.length = pNodes.length then fNodes else shrink keep fuel fNodes

/-- Do the nodes whose statement passes the filter contain a quorum with a slice of `qSet`? -/
def isQuorum (qSet : SCPQuorumSet) (map : EnvelopeMap)
    (qfun : SCPStatement → Option SCPQuorumSet) (filter : SCPStatement → Bool) : Bool :=
  let pNodes := filterNodes map filter
  isQuorumSlice qSet (shrink (quorumFilter map qfun) (pNodes.length + 1) pNodes)

section Shrink

variable {keep : List NodeID → NodeID → Bool}

theorem shrink_subset (fuel : ℕ) (pNodes : List NodeID) : shrink keep fuel pNodes ⊆ pNodes := by
  induction fuel generalizing pNodes with
  | zero => simp [shrink]
  | succ fuel ih =>
    simp only [shrink]
    split_ifs
    · exact List.filter_subset_self _
    · exact List.Subset.trans (ih _) (List.filter_subset_self _)

/-- What the loop leaves is closed: everything left passes the test against what is left. -/
theorem shrink_closed {fuel : ℕ} {pNodes : List NodeID} (h : pNodes.length < fuel) {n : NodeID}
    (hn : n ∈ shrink keep fuel pNodes) : keep (shrink keep fuel pNodes) n = true := by
  induction fuel generalizing pNodes with
  | zero => omega
  | succ fuel ih =>
    simp only [shrink] at hn ⊢
    split_ifs at hn ⊢ with hlen
    · have hall : pNodes.filter (keep pNodes) = pNodes :=
        List.filter_sublist.eq_of_length hlen
      rw [hall] at hn ⊢
      exact List.of_mem_filter (hall.symm ▸ hn)
    · have hle := List.length_filter_le (keep pNodes) pNodes
      exact ih (by omega) hn

/-- A closed subset of the start survives every round. -/
theorem subset_shrink (hkeep : ∀ (A B : List NodeID) (n : NodeID), A ⊆ B → keep A n = true →
    keep B n = true) {U : List NodeID} (hU : ∀ n ∈ U, keep U n = true) (fuel : ℕ)
    {pNodes : List NodeID} (h : U ⊆ pNodes) : U ⊆ shrink keep fuel pNodes := by
  induction fuel generalizing pNodes with
  | zero => simpa [shrink] using h
  | succ fuel ih =>
    have hsub : U ⊆ pNodes.filter (keep pNodes) := fun n hn =>
      List.mem_filter.mpr ⟨h hn, hkeep _ _ n h (hU n hn)⟩
    simp only [shrink]
    split_ifs
    · exact hsub
    · exact ih hsub

end Shrink

theorem quorumFilter_mono {map : EnvelopeMap} {qfun : SCPStatement → Option SCPQuorumSet}
    {A B : List NodeID} {n : NodeID} (hAB : A ⊆ B) (h : quorumFilter map qfun A n = true) :
    quorumFilter map qfun B n = true := by
  unfold quorumFilter at h ⊢
  rw [Option.any_eq_true] at h ⊢
  obtain ⟨q, hq, hs⟩ := h
  exact ⟨q, hq, isQuorumSlice_mono hAB hs⟩

/-- `U` is a set of nodes that pass the filter and is closed under their own quorum sets. -/
def QuorumIn (map : EnvelopeMap) (qfun : SCPStatement → Option SCPQuorumSet)
    (filter : SCPStatement → Bool) (U : List NodeID) : Prop :=
  ∀ n ∈ U, ∃ env q, map[n]? = some env ∧ filter env.statement = true ∧
    qfun env.statement = some q ∧ isQuorumSlice q U = true

theorem quorumFilter_iff {map : EnvelopeMap} {qfun : SCPStatement → Option SCPQuorumSet}
    {U : List NodeID} {n : NodeID} :
    quorumFilter map qfun U n = true ↔
      ∃ env q, map[n]? = some env ∧ qfun env.statement = some q ∧ isQuorumSlice q U = true := by
  unfold quorumFilter
  rw [Option.any_eq_true]
  constructor
  · rintro ⟨q, hq, hs⟩
    obtain ⟨env, henv, hq⟩ := Option.bind_eq_some_iff.mp hq
    exact ⟨env, q, henv, hq, hs⟩
  · rintro ⟨env, q, henv, hq, hs⟩
    exact ⟨q, Option.bind_eq_some_iff.mpr ⟨env, henv, hq⟩, hs⟩

section Greatest

variable {map : EnvelopeMap} {qfun : SCPStatement → Option SCPQuorumSet}
  {filter : SCPStatement → Bool}

/-- What the loop leaves is a quorum. -/
theorem quorumIn_shrink :
    QuorumIn map qfun filter
      (shrink (quorumFilter map qfun) ((filterNodes map filter).length + 1)
        (filterNodes map filter)) := by
  intro n hn
  obtain ⟨env, henv, hf⟩ := mem_filterNodes.mp (shrink_subset _ _ hn)
  obtain ⟨env', q, henv', hq, hs⟩ :=
    quorumFilter_iff.mp (shrink_closed (Nat.lt_succ_self _) hn)
  obtain rfl : env = env' := Option.some.inj (henv.symm.trans henv')
  exact ⟨env, q, henv, hf, hq, hs⟩

/-- Every quorum survives. -/
theorem QuorumIn.subset_shrink {U : List NodeID} (hU : QuorumIn map qfun filter U) {fuel : ℕ} :
    U ⊆ shrink (quorumFilter map qfun) fuel (filterNodes map filter) := by
  have hclosed : ∀ n ∈ U, quorumFilter map qfun U n = true := by
    intro n hn
    obtain ⟨env, q, henv, _, hq, hs⟩ := hU n hn
    exact quorumFilter_iff.mpr ⟨env, q, henv, hq, hs⟩
  have hsub : U ⊆ filterNodes map filter := by
    intro n hn
    obtain ⟨env, _, henv, hf, _⟩ := hU n hn
    exact mem_filterNodes.mpr ⟨env, henv, hf⟩
  have hmono : ∀ (A B : List NodeID) (n : NodeID), A ⊆ B → quorumFilter map qfun A n = true →
      quorumFilter map qfun B n = true := fun _ _ _ h => quorumFilter_mono h
  exact SCP.subset_shrink hmono hclosed _ hsub

end Greatest

/-- **`isQuorum` looks for a quorum.** It answers `true` iff the nodes that pass the filter
contain a closed set with a slice of `qSet`. -/
theorem isQuorum_iff {qSet : SCPQuorumSet} {map : EnvelopeMap}
    {qfun : SCPStatement → Option SCPQuorumSet} {filter : SCPStatement → Bool} :
    isQuorum qSet map qfun filter = true ↔
      ∃ U, QuorumIn map qfun filter U ∧ isQuorumSlice qSet U = true := by
  unfold isQuorum
  constructor
  · intro h
    exact ⟨_, quorumIn_shrink, h⟩
  · rintro ⟨U, hU, hs⟩
    exact isQuorumSlice_mono hU.subset_shrink hs

end SmartCore.SCP
