import SmartCore.Lib.Threshold
import SmartCore.SCP.LocalNode
import Mathlib.Data.List.Perm.Basic

/-!
# The meaning of quorum sets

A quorum set is a tree of thresholds (`toTree`). To `isQuorumSlice` it needs as many of its entries
as the threshold says, to `isVBlocking` as many as leave less than a slice. Where `int` can hold the
number of entries that is left until it blocks, the one is the dual of the other
(`isVBlocking_dual_iff`).

`normalizeQSet` moves single validators out of their inner sets, and takes off a set around a single
inner set. Neither changes the tree, up to the order of the entries and nodes with one child
(`normalizeQSet_spec`).
-/

namespace SmartCore.SCP

/-! ## Trees -/

namespace SCPQuorumSet

/-- Induction over the inner sets. -/
theorem induct {P : SCPQuorumSet → Prop}
    (mk : ∀ t v i, (∀ q ∈ i, P q) → P (mk t v i)) (q : SCPQuorumSet) : P q := by
  refine @SCPQuorumSet.rec P (fun i => ∀ q ∈ i, P q) mk ?_ ?_ q
  · intro q hq
    cases hq
  · intro q i hq hi q' hmem
    rcases List.mem_cons.mp hmem with rfl | hmem
    · exact hq
    · exact hi q' hmem

mutual

/-- The quorum set and the sets inside, at any depth. -/
def allSets : SCPQuorumSet → List SCPQuorumSet
  | .mk t v i => .mk t v i :: allSetsOf i

def allSetsOf : List SCPQuorumSet → List SCPQuorumSet
  | [] => []
  | q :: qs => allSets q ++ allSetsOf qs

end

mutual

/-- The nodes of the quorum set, in the order of `forAllNodes`. -/
def forAllNodesInternal : SCPQuorumSet → List NodeID
  | .mk _ v i => v ++ forAllNodesOf i

def forAllNodesOf : List SCPQuorumSet → List NodeID
  | [] => []
  | q :: qs => forAllNodesInternal q ++ forAllNodesOf qs

end

def toTree : SCPQuorumSet → ThresholdTree NodeID
  | .mk t v i => .node t.val (v.map .leaf ++ i.map toTree)

/-- The number of validators and inner sets. -/
def totEntries (q : SCPQuorumSet) : ℕ := q.validators.length + q.innerSets.length

end SCPQuorumSet

open SCPQuorumSet ThresholdTree

theorem allSetsOf_eq (i : List SCPQuorumSet) : allSetsOf i = i.flatMap allSets := by
  induction i with
  | nil => rfl
  | cons q qs ih => rw [allSetsOf, ih, List.flatMap_cons]

theorem forAllNodesOf_eq (i : List SCPQuorumSet) :
    forAllNodesOf i = i.flatMap forAllNodesInternal := by
  induction i with
  | nil => rfl
  | cons q qs ih => rw [forAllNodesOf, ih, List.flatMap_cons]

theorem toTree_mk (t : Uint32) (v : List NodeID) (i : List SCPQuorumSet) :
    toTree (.mk t v i) = .node t.val (v.map .leaf ++ i.map toTree) := by
  rw [toTree]

/-- The nodes are the leaves. -/
theorem leaves_toTree (q : SCPQuorumSet) : q.toTree.leaves = q.forAllNodesInternal := by
  induction q using SCPQuorumSet.induct with
  | mk t v i ih =>
    have hv : (v.map (ThresholdTree.leaf (α := NodeID))).map leaves = v.map fun a => [a] := by
      rw [List.map_map]
      exact List.map_congr_left fun a _ => by rw [Function.comp_apply, leaves]
    have hi : (i.map toTree).map leaves = i.map forAllNodesInternal := by
      rw [List.map_map]
      exact List.map_congr_left fun q hq => ih q hq
    rw [toTree_mk, leaves, List.map_append, List.flatten_append, hv, hi, forAllNodesInternal,
      forAllNodesOf_eq, List.flatMap_def]
    congr 1
    exact List.flatMap_singleton' v

/-- The nodes of the tree are the sets. -/
theorem nodes_toTree (q : SCPQuorumSet) :
    q.toTree.nodes = q.allSets.map fun p => (p.threshold.val, p.totEntries) := by
  induction q using SCPQuorumSet.induct with
  | mk t v i ih =>
    have hv : ((v.map (ThresholdTree.leaf (α := NodeID))).map nodes).flatten = [] := by
      rw [List.flatten_eq_nil_iff]
      simp [nodes]
    have hi : (i.map toTree).map nodes =
        i.map fun q => q.allSets.map fun p => (p.threshold.val, p.totEntries) := by
      rw [List.map_map]
      exact List.map_congr_left fun q hq => ih q hq
    rw [toTree_mk, nodes, List.map_append, List.flatten_append, hv, hi, allSets, allSetsOf_eq,
      List.map_cons, List.map_flatMap, List.flatMap_def]
    simp [totEntries, SCPQuorumSet.threshold, validators, innerSets]

/-! ## What is counted -/

/-- What `isQuorumSlice` needs of the entries. -/
def sliceNeed (t _ : ℕ) : ℕ := t

/-- What `isVBlocking` needs of the entries: `leftTillBlock` is an `int`, and one hit at least. -/
def blockNeed (t n : ℕ) : ℕ := (max 1 (Int.bmod (1 + n - t : ℤ) (2 ^ 32))).toNat

/-- What is left of the entries when there is less than a slice. -/
def dualNeed (t n : ℕ) : ℕ := n + 1 - t

theorem countdown_uint32 {hits : List Bool} {left : Uint32} (h : 1 ≤ left.val) :
    countdown hits left = true ↔ left.val ≤ hits.count true := by
  induction hits generalizing left with
  | nil =>
    rw [countdown, List.count_nil]
    simp only [Bool.false_eq_true, false_iff]
    omega
  | cons hit hits ih =>
    cases hit with
    | false => simpa [countdown] using ih h
    | true =>
      have hsub : (left - 1).val = left.val - 1 := Fin.sub_val_of_le h
      have hzero : left - 1 ≤ 0 ↔ (left - 1).val ≤ 0 := Iff.rfl
      unfold countdown
      rw [List.count_cons_self]
      split_ifs with hle
      · rw [hzero] at hle
        simp only [true_iff]
        omega
      · rw [hzero] at hle
        have hpos : 1 ≤ (left - 1).val := by omega
        rw [ih hpos, hsub]
        omega

theorem countdown_int {hits : List Bool} {left : ℤ} :
    countdown hits left = true ↔ (max 1 left).toNat ≤ hits.count true := by
  induction hits generalizing left with
  | nil =>
    rw [countdown, List.count_nil]
    simp only [Bool.false_eq_true, false_iff]
    omega
  | cons hit hits ih =>
    cases hit with
    | false => simpa [countdown] using ih
    | true =>
      unfold countdown
      rw [List.count_cons_self]
      split_ifs with hle
      · simp only [true_iff]
        omega
      · rw [ih]
        omega

theorem innerSlices_eq (S : List NodeID) (i : List SCPQuorumSet) :
    innerSlices S i = i.map (isQuorumSliceInternal S) := by
  induction i with
  | nil => rfl
  | cons q qs ih => rw [innerSlices, ih, List.map_cons]

theorem innerVBlocking_eq (S : List NodeID) (i : List SCPQuorumSet) :
    innerVBlocking S i = i.map (isVBlockingInternal S) := by
  induction i with
  | nil => rfl
  | cons q qs ih => rw [innerVBlocking, ih, List.map_cons]

/-- The hits of the code are the children that are satisfied. -/
theorem count_hits {S : List NodeID} {v : List NodeID} {i : List SCPQuorumSet}
    {need : ℕ → ℕ → ℕ} {f : SCPQuorumSet → Bool}
    (h : ∀ q ∈ i, f q = sat need (fun n => S.contains n) q.toTree) :
    (v.map (fun validator => S.contains validator) ++ i.map f).count true =
      (v.map ThresholdTree.leaf ++ i.map toTree).countP (sat need fun n => S.contains n) := by
  rw [List.count_append, List.countP_append, List.count_eq_countP, List.count_eq_countP,
    List.countP_map, List.countP_map, List.countP_map, List.countP_map]
  congr 1
  · exact List.countP_congr fun n _ => by simp [sat]
  · exact List.countP_congr fun q hq => by simp [h q hq]

/-- The thresholds are not zero. -/
def Positive (q : SCPQuorumSet) : Prop := ∀ p ∈ q.allSets, 1 ≤ p.threshold.val

theorem Positive.self {t : Uint32} {v : List NodeID} {i : List SCPQuorumSet}
    (h : Positive (.mk t v i)) : 1 ≤ t.val :=
  h (.mk t v i) (by rw [allSets]; exact List.mem_cons_self)

theorem allSets_subset {t : Uint32} {v : List NodeID} {i : List SCPQuorumSet} {q : SCPQuorumSet}
    (hq : q ∈ i) : q.allSets ⊆ (SCPQuorumSet.mk t v i).allSets := by
  rw [allSets, allSetsOf_eq]
  exact fun p hp => List.mem_cons_of_mem _ (List.mem_flatMap.mpr ⟨q, hq, hp⟩)

theorem Positive.inner {t : Uint32} {v : List NodeID} {i : List SCPQuorumSet}
    (h : Positive (.mk t v i)) {q : SCPQuorumSet} (hq : q ∈ i) : Positive q :=
  fun p hp => h p (allSets_subset hq hp)

theorem isQuorumSlice_eq_sat {q : SCPQuorumSet} (h : Positive q) (S : List NodeID) :
    isQuorumSlice q S = sat sliceNeed (fun n => S.contains n) q.toTree := by
  induction q using SCPQuorumSet.induct with
  | mk t v i ih =>
    rw [isQuorumSlice, isQuorumSliceInternal, Bool.eq_iff_iff, toTree_mk, sat_node, innerSlices_eq,
      countdown_uint32 h.self, count_hits (f := isQuorumSliceInternal S) fun q hq => ih q hq (h.inner hq)]
    rfl

theorem isVBlocking_eq_sat {q : SCPQuorumSet} (h : Positive q) (S : List NodeID) :
    isVBlocking q S = sat blockNeed (fun n => S.contains n) q.toTree := by
  induction q using SCPQuorumSet.induct with
  | mk t v i ih =>
    have ht : t ≠ 0 := by
      have := h.self
      rintro rfl
      simp at this
    rw [isVBlocking, isVBlockingInternal, if_neg ht, Bool.eq_iff_iff, toTree_mk, sat_node,
      innerVBlocking_eq, countdown_int,
      count_hits (f := isVBlockingInternal S) fun q hq => ih q hq (h.inner hq), blockNeed]
    rw [List.length_append, List.length_map, List.length_map]
    push_cast
    rw [add_assoc]

/-! ## Sane quorum sets -/

/-- `known'` are the nodes `known` and the new ones, each of them once. -/
def Adds (new known known' : List NodeID) : Prop :=
  new.Nodup ∧ new.Disjoint known ∧ known' = new.reverse ++ known

theorem adds_append {A B known known' : List NodeID} :
    Adds (A ++ B) known known' ↔ ∃ m, Adds A known m ∧ Adds B m known' := by
  constructor
  · rintro ⟨hnodup, hdisjoint, rfl⟩
    obtain ⟨hA, hB, hAB⟩ := List.nodup_append'.mp hnodup
    obtain ⟨hA', hB'⟩ := List.disjoint_append_left.mp hdisjoint
    refine ⟨A.reverse ++ known, ⟨hA, hA', rfl⟩, hB, ?_, by simp⟩
    intro n hn hmem
    rcases List.mem_append.mp hmem with hmem | hmem
    · exact hAB (List.mem_reverse.mp hmem) hn
    · exact hB' hn hmem
  · rintro ⟨m, ⟨hA, hA', rfl⟩, hB, hB', rfl⟩
    obtain ⟨hBA, hB'⟩ := List.disjoint_append_right.mp hB'
    refine ⟨List.nodup_append'.mpr ⟨hA, hB, fun n hn hn' => ?_⟩,
      List.disjoint_append_left.mpr ⟨hA', hB'⟩, by simp⟩
    exact hBA hn' (List.mem_reverse.mpr hn)

theorem insertNodes_iff {v known known' : List NodeID} :
    insertNodes v known = some known' ↔ Adds v known known' := by
  induction v generalizing known with
  | nil =>
    rw [insertNodes, Option.some_inj, eq_comm]
    simp [Adds]
  | cons n v ih =>
    have hone : Adds [n] known (n :: known) ↔ n ∉ known := by simp [Adds]
    rw [show n :: v = [n] ++ v from rfl, adds_append]
    show (if n ∈ known then none else insertNodes v (n :: known)) = some known' ↔ _
    split_ifs with hn
    · simp only [false_iff]
      rintro ⟨m, hm, -⟩
      exact hm.2.1 List.mem_cons_self hn
    · rw [ih]
      constructor
      · exact fun h => ⟨n :: known, hone.mpr hn, h⟩
      · rintro ⟨m, ⟨-, -, rfl⟩, h⟩
        exact h

/-- The thresholds are within the proper range. -/
def InRange (extraChecks : Bool) (q : SCPQuorumSet) : Prop :=
  ∀ p ∈ q.allSets, 1 ≤ p.threshold.val ∧ p.threshold.val ≤ p.totEntries ∧
    (extraChecks = false ∨ p.totEntries - p.threshold.val + 1 ≤ p.threshold.val)

variable {extraChecks : Bool}

theorem InRange.positive {q : SCPQuorumSet} (h : InRange extraChecks q) : Positive q :=
  fun p hp => (h p hp).1

theorem inRange_mk {t : Uint32} {v : List NodeID} {i : List SCPQuorumSet} :
    InRange extraChecks (.mk t v i) ↔
      (1 ≤ t.val ∧ t.val ≤ v.length + i.length ∧
        (extraChecks = false ∨ v.length + i.length - t.val + 1 ≤ t.val)) ∧
          ∀ q ∈ i, InRange extraChecks q := by
  rw [InRange, allSets, allSetsOf_eq, List.forall_mem_cons]
  refine and_congr Iff.rfl ⟨fun h q hq p hp => h p (List.mem_flatMap.mpr ⟨q, hq, hp⟩), ?_⟩
  intro h p hp
  obtain ⟨q, hq, hp⟩ := List.mem_flatMap.mp hp
  exact h q hq p hp

theorem innerSetsSane_iff {i : List SCPQuorumSet} {known known' : List NodeID}
    (h : ∀ q ∈ i, ∀ known known', isQuorumSetSaneInternal extraChecks q known = some known' ↔
      InRange extraChecks q ∧ Adds q.forAllNodesInternal known known') :
    innerSetsSane extraChecks i known = some known' ↔
      (∀ q ∈ i, InRange extraChecks q) ∧ Adds (forAllNodesOf i) known known' := by
  induction i generalizing known with
  | nil =>
    rw [innerSetsSane, Option.some_inj, eq_comm]
    simp [Adds, forAllNodesOf]
  | cons q qs ih =>
    have hq := h q List.mem_cons_self
    have hqs : ∀ known, innerSetsSane extraChecks qs known = some known' ↔
        (∀ q ∈ qs, InRange extraChecks q) ∧ Adds (forAllNodesOf qs) known known' :=
      fun known => ih fun q hq => h q (List.mem_cons_of_mem _ hq)
    rw [innerSetsSane, Option.bind_eq_some_iff, forAllNodesOf, adds_append, List.forall_mem_cons]
    constructor
    · rintro ⟨m, hm, hrest⟩
      obtain ⟨hrange, hm⟩ := (hq known m).mp hm
      obtain ⟨hranges, hrest⟩ := (hqs m).mp hrest
      exact ⟨⟨hrange, hranges⟩, m, hm, hrest⟩
    · rintro ⟨⟨hrange, hranges⟩, m, hm, hrest⟩
      exact ⟨m, (hq known m).mpr ⟨hrange, hm⟩, (hqs m).mpr ⟨hranges, hrest⟩⟩

theorem isQuorumSetSaneInternal_iff {q : SCPQuorumSet} {known known' : List NodeID} :
    isQuorumSetSaneInternal extraChecks q known = some known' ↔
      InRange extraChecks q ∧ Adds q.forAllNodesInternal known known' := by
  induction q using SCPQuorumSet.induct generalizing known known' with
  | mk t v i ih =>
    rw [isQuorumSetSaneInternal, inRange_mk, forAllNodesInternal, adds_append]
    split_ifs with hrange
    · rw [Option.bind_eq_some_iff]
      constructor
      · rintro ⟨m, hm, hrest⟩
        obtain ⟨hranges, hrest⟩ := (innerSetsSane_iff fun q hq _ _ => ih q hq).mp hrest
        exact ⟨⟨hrange, hranges⟩, m, insertNodes_iff.mp hm, hrest⟩
      · rintro ⟨⟨-, hranges⟩, m, hm, hrest⟩
        exact ⟨m, insertNodes_iff.mpr hm,
          (innerSetsSane_iff fun q hq _ _ => ih q hq).mpr ⟨hranges, hrest⟩⟩
    · simp only [false_iff]
      exact fun h => hrange h.1.1

/-- **Sane** means: every threshold is in range, and no node is in it twice. -/
theorem isQuorumSetSane_iff {q : SCPQuorumSet} :
    isQuorumSetSane q extraChecks = true ↔
      InRange extraChecks q ∧ q.forAllNodesInternal.Nodup := by
  rw [isQuorumSetSane, Option.isSome_iff_exists]
  constructor
  · rintro ⟨known, h⟩
    obtain ⟨hrange, hnodup, -⟩ := isQuorumSetSaneInternal_iff.mp h
    exact ⟨hrange, hnodup⟩
  · rintro ⟨hrange, hnodup⟩
    exact ⟨_, isQuorumSetSaneInternal_iff.mpr ⟨hrange, hnodup, List.disjoint_nil_right _, rfl⟩⟩

/-! ## Duality -/

/-- `leftTillBlock` fits in an `int`, for the quorum set and all inner sets. -/
def FitsInt (q : SCPQuorumSet) : Prop :=
  ∀ p ∈ q.allSets, 1 + p.totEntries - p.threshold.val < 2 ^ 31

theorem blockNeed_eq {t n : ℕ} (ht : t ≤ n) (h : 1 + n - t < 2 ^ 31) :
    blockNeed t n = dualNeed t n := by
  have hbmod : Int.bmod (1 + n - t : ℤ) (2 ^ 32) = 1 + n - t := by
    rw [Int.bmod_def]
    omega
  rw [blockNeed, hbmod, dualNeed]
  omega

theorem blockNeed_le {t n : ℕ} (ht : t ≤ n) : blockNeed t n ≤ dualNeed t n := by
  rw [blockNeed, dualNeed, Int.bmod_def]
  omega

theorem blockNeed_lt {t n : ℕ} (ht : t ≤ n) (h : 2 ^ 31 ≤ 1 + n - t) :
    blockNeed t n < dualNeed t n := by
  rw [blockNeed, dualNeed, Int.bmod_def]
  omega

section Duality

variable {q : SCPQuorumSet}

/-- The threshold and the number of entries of each set, of a quorum set in range. -/
theorem InRange.nodes (h : InRange extraChecks q) : ∀ p ∈ q.toTree.nodes, 1 ≤ p.1 ∧ p.1 ≤ p.2 := by
  rw [nodes_toTree]
  intro p hp
  obtain ⟨r, hr, rfl⟩ := List.mem_map.mp hp
  exact ⟨(h r hr).1, (h r hr).2.1⟩

theorem InRange.sat_dual (h : InRange extraChecks q) (S : NodeID → Bool) :
    sat dualNeed S q.toTree = !sat sliceNeed (fun n => !S n) q.toTree := by
  refine ThresholdTree.sat_dual fun p hp => ?_
  have := h.nodes p hp
  rw [dualNeed, sliceNeed]
  omega

/-- The nodes of the quorum set outside `S`, as far as it matters. -/
theorem isQuorumSlice_outside (h : Positive q) (S : List NodeID) :
    isQuorumSlice q (q.forAllNodesInternal.filter fun n => !S.contains n) =
      sat sliceNeed (fun n => !S.contains n) q.toTree := by
  rw [isQuorumSlice_eq_sat h]
  refine sat_congr fun n hn => ?_
  rw [leaves_toTree] at hn
  rw [Bool.eq_iff_iff, List.contains_iff_mem, List.mem_filter]
  exact and_iff_right hn

end Duality

/-- **V-blocking is the dual of slice satisfaction**: a set of nodes is v-blocking for a sane quorum
set if and only if the nodes outside of it contain no slice. This is so for all sets of nodes if and
only if `leftTillBlock` fits in an `int` at every level. -/
theorem isVBlocking_dual_iff (q : SCPQuorumSet) (extraChecks : Bool)
    (h : isQuorumSetSane q extraChecks = true) :
    (∀ S : List NodeID, isVBlocking q S = true ↔
      isQuorumSlice q (q.forAllNodesInternal.filter fun n => !S.contains n) = false) ↔
        FitsInt q := by
  obtain ⟨hrange, hnodup⟩ := isQuorumSetSane_iff.mp h
  constructor
  · intro hdual p hp
    by_contra hbig
    -- somewhere fewer entries are asked for, so a set blocks that leaves a slice
    have hneed : ∀ r ∈ q.toTree.nodes, 1 ≤ blockNeed r.1 r.2 ∧
        blockNeed r.1 r.2 ≤ dualNeed r.1 r.2 ∧ dualNeed r.1 r.2 ≤ r.2 := by
      intro r hr
      obtain ⟨hpos, hle⟩ := hrange.nodes r hr
      refine ⟨?_, blockNeed_le hle, ?_⟩
      · rw [blockNeed]
        omega
      · rw [dualNeed]
        omega
    have hlt : ∃ r ∈ q.toTree.nodes, blockNeed r.1 r.2 < dualNeed r.1 r.2 := by
      refine ⟨(p.threshold.val, p.totEntries), ?_, blockNeed_lt (hrange p hp).2.1 (by omega)⟩
      rw [nodes_toTree]
      exact List.mem_map_of_mem hp
    obtain ⟨S, -, hblocks, hdoes⟩ := exists_sat_of_lt (by rwa [leaves_toTree]) hneed hlt
    have hcontains : (fun n => decide (n ∈ S)) = fun n => S.contains n := by
      funext n
      rw [Bool.eq_iff_iff, decide_eq_true_iff, List.contains_iff_mem]
    rw [hcontains] at hblocks hdoes
    have hslice := (hdual S).mp ((isVBlocking_eq_sat hrange.positive S).trans hblocks)
    rw [isQuorumSlice_outside hrange.positive] at hslice
    rw [hrange.sat_dual, hslice] at hdoes
    cases hdoes
  · intro hfits S
    have hneed : ∀ r ∈ q.toTree.nodes, blockNeed r.1 r.2 = dualNeed r.1 r.2 := by
      intro r hr
      rw [nodes_toTree] at hr
      obtain ⟨p, hp, rfl⟩ := List.mem_map.mp hr
      exact blockNeed_eq (hrange p hp).2.1 (hfits p hp)
    rw [isVBlocking_eq_sat hrange.positive, sat_need_congr hneed, hrange.sat_dual,
      isQuorumSlice_outside hrange.positive, Bool.not_eq_true']

/-- Three of four validators. -/
theorem isVBlocking_dual_iff_threeOfFour :
    isQuorumSetSane (.mk 3 [0, 1, 2, 3] []) false = true ∧
      ∀ S : List NodeID, isVBlocking (.mk 3 [0, 1, 2, 3] []) S = true ↔
        isQuorumSlice (.mk 3 [0, 1, 2, 3] [])
          ((SCPQuorumSet.mk 3 [0, 1, 2, 3] []).forAllNodesInternal.filter
            fun n => !S.contains n) = false := by
  refine ⟨by decide, (isVBlocking_dual_iff (.mk 3 [0, 1, 2, 3] []) false (by decide)).mpr ?_⟩
  intro p hp
  obtain rfl : p = .mk 3 [0, 1, 2, 3] [] := by
    simpa [allSets, allSetsOf] using hp
  decide

/-- One of `2 ^ 31` validators: `leftTillBlock` is negative, so any one of them blocks, although any
other is a slice. -/
theorem isVBlocking_not_dual :
    ∃ q : SCPQuorumSet, isQuorumSetSane q false = true ∧ isVBlocking q [0] = true ∧
      isQuorumSlice q (q.forAllNodesInternal.filter fun n => !([0] : List NodeID).contains n) =
        true := by
  obtain ⟨N, hN⟩ : ∃ N : ℕ, N = 2 ^ 31 := ⟨_, rfl⟩
  have hnodes : (SCPQuorumSet.mk 1 (List.range N) []).forAllNodesInternal = List.range N := by
    rw [forAllNodesInternal, forAllNodesOf, List.append_nil]
  have hcount : ∀ n < N, ∀ p : NodeID → Bool, p n = true →
      1 ≤ ((List.range N).map p).count true := by
    intro n hn p hp
    rw [List.one_le_count_iff]
    exact List.mem_map.mpr ⟨n, List.mem_range.mpr hn, hp⟩
  refine ⟨.mk 1 (List.range N) [], ?_, ?_, ?_⟩
  · rw [isQuorumSetSane_iff, hnodes, inRange_mk, List.length_range]
    refine ⟨⟨⟨le_rfl, ?_, Or.inl rfl⟩, fun q hq => nomatch hq⟩, List.nodup_range⟩
    show 1 ≤ N + 0
    omega
  · have hleft : Int.bmod (1 + N + (0 : ℕ) - ((1 : Uint32).val : ℤ)) (2 ^ 32) ≤ 0 := by
      show Int.bmod (1 + N + (0 : ℕ) - 1) (2 ^ 32) ≤ 0
      rw [Int.bmod_def]
      omega
    have hhit := hcount 0 (by omega) (fun n => ([0] : List NodeID).contains n) rfl
    rw [isVBlocking, isVBlockingInternal, if_neg (by decide), countdown_int, innerVBlocking,
      List.append_nil, List.length_range, List.length_nil]
    omega
  · rw [isQuorumSlice, isQuorumSliceInternal, countdown_uint32 le_rfl, innerSlices,
      List.append_nil, hnodes]
    refine hcount 1 (by omega) _ ?_
    rw [List.contains_iff_mem, List.mem_filter, List.mem_range]
    exact ⟨by omega, rfl⟩

/-! ## The greatest quorum -/

/-- The `do … while` loop of `isQuorum` ends, with the nodes `r`. -/
inductive ShrinksTo (keep : List NodeID → NodeID → Bool) : List NodeID → List NodeID → Prop
  | stop {pNodes : List NodeID} (h : (pNodes.filter (keep pNodes)).length = pNodes.length) :
      ShrinksTo keep pNodes (pNodes.filter (keep pNodes))
  | again {pNodes r : List NodeID} (h : (pNodes.filter (keep pNodes)).length ≠ pNodes.length)
      (rest : ShrinksTo keep (pNodes.filter (keep pNodes)) r) : ShrinksTo keep pNodes r

section Loop

variable {keep : List NodeID → NodeID → Bool} {pNodes r r' : List NodeID}

theorem shrinksTo_shrink {fuel : ℕ} (h : pNodes.length < fuel) :
    ShrinksTo keep pNodes (shrink keep fuel pNodes) := by
  induction fuel generalizing pNodes with
  | zero => omega
  | succ fuel ih =>
    simp only [shrink]
    split_ifs with hlen
    · exact .stop hlen
    · have hle := List.length_filter_le (keep pNodes) pNodes
      exact .again hlen (ih (by omega))

theorem ShrinksTo.unique (h : ShrinksTo keep pNodes r) (h' : ShrinksTo keep pNodes r') : r' = r := by
  induction h with
  | stop hlen =>
    cases h' with
    | stop _ => rfl
    | again hne _ => exact absurd hlen hne
  | again hne _ ih =>
    cases h' with
    | stop hlen => exact absurd hlen hne
    | again _ rest => exact ih rest

end Loop

/-- **`isQuorum` computes the greatest quorum**: its loop ends, with the greatest set of nodes whose
statements pass the filter and in which every node has a slice; and it returns whether `qSet` has a
slice there, that is, in any such set. -/
theorem isQuorum_greatest (qSet : SCPQuorumSet) (map : EnvelopeMap)
    (qfun : SCPStatement → Option SCPQuorumSet) (filter : SCPStatement → Bool) :
    (∃ r, ShrinksTo (quorumFilter map qfun) (filterNodes map filter) r ∧
      (∀ r', ShrinksTo (quorumFilter map qfun) (filterNodes map filter) r' → r' = r) ∧
      (QuorumIn map qfun filter r ∧ ∀ U, QuorumIn map qfun filter U → U ⊆ r) ∧
      isQuorum qSet map qfun filter = isQuorumSlice qSet r) ∧
    (isQuorum qSet map qfun filter = true ↔
      ∃ U, QuorumIn map qfun filter U ∧ isQuorumSlice qSet U = true) := by
  have hends : ShrinksTo (quorumFilter map qfun) (filterNodes map filter) _ :=
    shrinksTo_shrink (Nat.lt_succ_self (filterNodes map filter).length)
  exact ⟨⟨_, hends, fun r' h' => hends.unique h', ⟨quorumIn_shrink, fun U hU => hU.subset_shrink⟩,
    rfl⟩, isQuorum_iff⟩

/-! ## Normalization -/

/-- The validator of a set `{ t: 1, X }`. -/
def singleton? : SCPQuorumSet → Option NodeID
  | .mk t v i =>
    match v, i with
    | [n], [] => if t = 1 then some n else none
    | _, _ => none

/-- `{ t:1, { innerSet } }` is simplified to its inner set. -/
def simplify (t : Uint32) (v : List NodeID) (i : List SCPQuorumSet) : SCPQuorumSet :=
  match v, i with
  | [], [q] => if t = 1 then q else .mk t [] [q]
  | v, i => .mk t v i

mutual

def normalizeQSet : SCPQuorumSet → SCPQuorumSet
  | .mk t v i =>
    let r := normalizeInnerSets v i
    simplify t r.1 r.2

/-- The loop over the inner sets: singletons are merged into the list of validators. -/
def normalizeInnerSets (v : List NodeID) :
    List SCPQuorumSet → List NodeID × List SCPQuorumSet
  | [] => (v, [])
  | q :: qs =>
    match singleton? (normalizeQSet q) with
    | some n => normalizeInnerSets (v ++ [n]) qs
    | none =>
      let r := normalizeInnerSets v qs
      (r.1, normalizeQSet q :: r.2)

end

theorem singleton?_eq_some {q : SCPQuorumSet} {n : NodeID} :
    singleton? q = some n ↔ q = getSingletonQSet n := by
  obtain ⟨t, v, i⟩ := q
  rw [getSingletonQSet]
  cases v with
  | nil => simp [singleton?]
  | cons m ms =>
    cases ms with
    | cons m' ms => simp [singleton?]
    | nil =>
      cases i with
      | cons q qs => simp [singleton?]
      | nil =>
        simp only [singleton?]
        split_ifs with ht
        · simp [ht]
        · simp [ht]

theorem simplify_eq (t : Uint32) (v : List NodeID) (i : List SCPQuorumSet) :
    (∃ q, t = 1 ∧ v = [] ∧ i = [q] ∧ simplify t v i = q) ∨
      simplify t v i = .mk t v i ∧ ¬ (t = 1 ∧ v = [] ∧ i.length = 1) := by
  match v, i with
  | [], [q] =>
    simp only [simplify]
    split_ifs with ht
    · exact Or.inl ⟨q, ht, trivial, rfl, rfl⟩
    · exact Or.inr ⟨rfl, fun h => ht h.1⟩
  | [], [] => exact Or.inr ⟨rfl, by simp⟩
  | [], _ :: _ :: _ => exact Or.inr ⟨rfl, by simp⟩
  | _ :: _, _ => exact Or.inr ⟨rfl, by simp⟩

/-- The loop over the inner sets: the singletons are in the list of validators now, and the others
are left. -/
theorem normalizeInnerSets_spec (i : List SCPQuorumSet) (v : List NodeID) :
    ∃ singles rest, normalizeInnerSets v i = (v ++ singles, rest) ∧
      (i.map normalizeQSet).Perm (singles.map getSingletonQSet ++ rest) ∧
        ∀ q ∈ rest, ∀ n, q ≠ getSingletonQSet n := by
  induction i generalizing v with
  | nil => exact ⟨[], [], by rw [normalizeInnerSets, List.append_nil], .nil, fun _ h => nomatch h⟩
  | cons q qs ih =>
    rw [normalizeInnerSets, List.map_cons]
    cases hs : singleton? (normalizeQSet q) with
    | some n =>
      obtain ⟨singles, rest, heq, hperm, hrest⟩ := ih (v ++ [n])
      refine ⟨n :: singles, rest, ?_, ?_, hrest⟩
      · dsimp only
        rw [heq, List.append_assoc, List.singleton_append]
      · rw [singleton?_eq_some.mp hs, List.map_cons, List.cons_append]
        exact hperm.cons _
    | none =>
      obtain ⟨singles, rest, heq, hperm, hrest⟩ := ih v
      refine ⟨singles, normalizeQSet q :: rest, ?_, ?_, ?_⟩
      · dsimp only
        rw [heq]
      · exact (hperm.cons _).trans List.perm_middle.symm
      · intro p hp n hpn
        rcases List.mem_cons.mp hp with rfl | hp
        · rw [singleton?_eq_some.mpr hpn] at hs
          cases hs
        · exact hrest p hp n hpn

/-- `normalizeQSet`, once the singletons are out of the inner sets. -/
theorem normalizeQSet_mk (t : Uint32) (v : List NodeID) (i : List SCPQuorumSet) :
    ∃ singles rest, normalizeQSet (.mk t v i) = simplify t (v ++ singles) rest ∧
      (i.map normalizeQSet).Perm (singles.map getSingletonQSet ++ rest) ∧
        ∀ q ∈ rest, ∀ n, q ≠ getSingletonQSet n := by
  obtain ⟨singles, rest, heq, hperm, hrest⟩ := normalizeInnerSets_spec i v
  refine ⟨singles, rest, ?_, hperm, hrest⟩
  rw [normalizeQSet, heq]

section Normalize

variable {t : Uint32} {v singles : List NodeID} {i rest : List SCPQuorumSet}

theorem length_of_perm (h : (i.map normalizeQSet).Perm (singles.map getSingletonQSet ++ rest)) :
    i.length = singles.length + rest.length := by
  simpa using h.length_eq

theorem mem_of_perm (h : (i.map normalizeQSet).Perm (singles.map getSingletonQSet ++ rest))
    {q : SCPQuorumSet} (hq : q ∈ rest) : ∃ p ∈ i, normalizeQSet p = q :=
  List.mem_map.mp (h.mem_iff.mpr (List.mem_append_right _ hq))

/-- A validator counts the same on its own and in a set. -/
theorem sat_singleton {need : ℕ → ℕ → ℕ} {S : NodeID → Bool} (h : need 1 1 = 1) (n : NodeID) :
    sat need S (getSingletonQSet n).toTree = S n := by
  rw [getSingletonQSet, toTree_mk, Bool.eq_iff_iff, sat_node]
  show need 1 1 ≤ _ ↔ _
  rw [h]
  cases hS : S n <;> simp [sat, hS]

theorem sat_wrapper {need : ℕ → ℕ → ℕ} {S : NodeID → Bool} (h : need 1 1 = 1) (q : SCPQuorumSet) :
    sat need S (SCPQuorumSet.mk 1 [] [q]).toTree = sat need S q.toTree := by
  rw [toTree_mk, Bool.eq_iff_iff, sat_node]
  show need 1 1 ≤ _ ↔ _
  rw [h]
  cases hS : sat need S q.toTree <;> simp [hS]

/-- **The meaning is the same**, whatever is needed of sets with more than one entry. -/
theorem sat_normalizeQSet {need : ℕ → ℕ → ℕ} {S : NodeID → Bool} (h : need 1 1 = 1)
    (q : SCPQuorumSet) : sat need S (normalizeQSet q).toTree = sat need S q.toTree := by
  induction q using SCPQuorumSet.induct with
  | mk t v i ih =>
    obtain ⟨singles, rest, heq, hperm, -⟩ := normalizeQSet_mk t v i
    have hsame : sat need S (SCPQuorumSet.mk t (v ++ singles) rest).toTree =
        sat need S (SCPQuorumSet.mk t v i).toTree := by
      have hlen := length_of_perm hperm
      have hcount : i.countP (fun q => sat need S q.toTree) =
          singles.countP S + rest.countP fun q => sat need S q.toTree := by
        calc i.countP (fun q => sat need S q.toTree)
            = i.countP fun q => sat need S (normalizeQSet q).toTree :=
              List.countP_congr fun q hq => by rw [ih q hq]
          _ = (i.map normalizeQSet).countP fun q => sat need S q.toTree := by
              rw [List.countP_map]
              rfl
          _ = (singles.map getSingletonQSet ++ rest).countP fun q => sat need S q.toTree :=
              hperm.countP_eq _
          _ = _ := by
              rw [List.countP_append, List.countP_map]
              congr 1
              exact List.countP_congr fun n _ => by rw [Function.comp_apply, sat_singleton h]
      have hleaf : ∀ l : List NodeID,
          (l.map ThresholdTree.leaf).countP (sat need S) = l.countP S := by
        intro l
        rw [List.countP_map]
        exact List.countP_congr fun n _ => by rw [Function.comp_apply, sat]
      have hinner : ∀ l : List SCPQuorumSet,
          (l.map toTree).countP (sat need S) = l.countP fun q => sat need S q.toTree := by
        intro l
        rw [List.countP_map]
        rfl
      rw [toTree_mk, toTree_mk, Bool.eq_iff_iff, sat_node, sat_node, List.countP_append,
        List.countP_append, hleaf, hleaf, hinner, hinner, List.countP_append, hcount]
      simp only [List.length_append, List.length_map, hlen, add_assoc]
    rw [heq]
    rcases simplify_eq t (v ++ singles) rest with ⟨q, rfl, hv, hi, hq⟩ | ⟨hq, -⟩
    · rw [hq, ← hsame, hv, hi, sat_wrapper h]
    · rw [hq, hsame]

/-- The same nodes, in another order. -/
theorem forAllNodes_normalizeQSet (q : SCPQuorumSet) :
    (normalizeQSet q).forAllNodesInternal.Perm q.forAllNodesInternal := by
  induction q using SCPQuorumSet.induct with
  | mk t v i ih =>
    obtain ⟨singles, rest, heq, hperm, -⟩ := normalizeQSet_mk t v i
    have hsame : (SCPQuorumSet.mk t (v ++ singles) rest).forAllNodesInternal.Perm
        (SCPQuorumSet.mk t v i).forAllNodesInternal := by
      have hinner : (i.flatMap forAllNodesInternal).Perm
          (singles ++ rest.flatMap forAllNodesInternal) := by
        have hmap : (i.flatMap fun q => (normalizeQSet q).forAllNodesInternal) =
            (i.map normalizeQSet).flatMap forAllNodesInternal := by
          rw [List.flatMap_map]
        have hsingles : (singles.map getSingletonQSet).flatMap forAllNodesInternal = singles := by
          rw [List.flatMap_map]
          exact List.flatMap_singleton' singles
        refine (List.Perm.flatMap_left _ fun q hq => (ih q hq).symm).trans ?_
        rw [hmap]
        refine (hperm.flatMap_right _).trans ?_
        rw [List.flatMap_append, hsingles]
      rw [forAllNodesInternal, forAllNodesInternal, forAllNodesOf_eq, forAllNodesOf_eq,
        List.append_assoc]
      exact hinner.symm.append_left v
    rw [heq]
    rcases simplify_eq t (v ++ singles) rest with ⟨q, -, hv, hi, hq⟩ | ⟨hq, -⟩
    · rw [hq]
      rw [hv, hi, forAllNodesInternal, forAllNodesOf, forAllNodesOf, List.nil_append,
        List.append_nil] at hsame
      exact hsame
    · rw [hq]
      exact hsame

theorem InRange.normalizeQSet {q : SCPQuorumSet} (h : InRange extraChecks q) :
    InRange extraChecks (normalizeQSet q) := by
  induction q using SCPQuorumSet.induct with
  | mk t v i ih =>
    obtain ⟨singles, rest, heq, hperm, -⟩ := normalizeQSet_mk t v i
    obtain ⟨hself, hinner⟩ := inRange_mk.mp h
    have hrest : ∀ q ∈ rest, InRange extraChecks q := by
      intro q hq
      obtain ⟨p, hp, rfl⟩ := mem_of_perm hperm hq
      exact ih p hp (hinner p hp)
    rw [heq]
    rcases simplify_eq t (v ++ singles) rest with ⟨q, -, -, hi, hq⟩ | ⟨hq, -⟩
    · rw [hq]
      exact hrest q (by rw [hi]; exact List.mem_singleton_self q)
    · have hlen := length_of_perm hperm
      have htot : (v ++ singles).length + rest.length = v.length + i.length := by
        rw [List.length_append, hlen, add_assoc]
      rw [hq, inRange_mk, htot]
      exact ⟨hself, hrest⟩

/-- Nothing is left to simplify. -/
inductive Normal : SCPQuorumSet → Prop
  | mk {t : Uint32} {v : List NodeID} {i : List SCPQuorumSet} (inner : ∀ q ∈ i, Normal q)
      (single : ∀ q ∈ i, ∀ n, q ≠ getSingletonQSet n)
      (wrapper : ¬ (t = 1 ∧ v = [] ∧ i.length = 1)) : Normal (.mk t v i)

theorem normal_normalizeQSet (q : SCPQuorumSet) : Normal (normalizeQSet q) := by
  induction q using SCPQuorumSet.induct with
  | mk t v i ih =>
    obtain ⟨singles, rest, heq, hperm, hsingle⟩ := normalizeQSet_mk t v i
    have hrest : ∀ q ∈ rest, Normal q := by
      intro q hq
      obtain ⟨p, hp, rfl⟩ := mem_of_perm hperm hq
      exact ih p hp
    rw [heq]
    rcases simplify_eq t (v ++ singles) rest with ⟨q, -, -, hi, hq⟩ | ⟨hq, hwrapper⟩
    · rw [hq]
      exact hrest q (by rw [hi]; exact List.mem_singleton_self q)
    · rw [hq]
      exact .mk hrest hsingle hwrapper

theorem Normal.normalizeQSet_eq {q : SCPQuorumSet} (h : Normal q) : normalizeQSet q = q := by
  induction h with
  | @mk t v i inner single wrapper ih =>
    have hinner : ∀ l : List SCPQuorumSet, l ⊆ i → normalizeInnerSets v l = (v, l) := by
      intro l hl
      induction l with
      | nil => rw [normalizeInnerSets]
      | cons q qs ihl =>
        have hq := hl List.mem_cons_self
        have hnone : singleton? (normalizeQSet q) = none := by
          rw [ih q hq, Option.eq_none_iff_forall_ne_some]
          exact fun n hn => single q hq n (singleton?_eq_some.mp hn)
        rw [normalizeInnerSets, hnone]
        dsimp only
        rw [ihl (List.subset_of_cons_subset hl), ih q hq]
    rw [normalizeQSet, hinner i (List.Subset.refl i)]
    rcases simplify_eq t v i with ⟨q, ht, hv, hi, -⟩ | ⟨hq, -⟩
    · exact absurd ⟨ht, hv, by rw [hi]; rfl⟩ wrapper
    · exact hq

/-- The inner sets at any depth, without the set itself. -/
theorem Normal.single_of_mem {q p : SCPQuorumSet} (h : Normal q)
    (hp : p ∈ allSetsOf q.innerSets) (n : NodeID) : p ≠ getSingletonQSet n := by
  induction h with
  | @mk t v i inner single wrapper ih =>
    rw [innerSets, allSetsOf_eq] at hp
    obtain ⟨q, hq, hp⟩ := List.mem_flatMap.mp hp
    obtain ⟨t', v', i'⟩ := q
    rw [allSets] at hp
    rcases List.mem_cons.mp hp with rfl | hp
    · exact single _ hq n
    · exact ih _ hq hp

end Normalize

/-- **`normalizeQSet` preserves the meaning** of a sane quorum set: slices and v-blocking sets are
the same, the result is sane, no inner set is a single validator any more, at any depth, and there
is nothing left to do. -/
theorem normalizeQSet_spec (q : SCPQuorumSet) (extraChecks : Bool)
    (h : isQuorumSetSane q extraChecks = true) :
    (∀ S, isQuorumSlice (normalizeQSet q) S = isQuorumSlice q S ∧
      isVBlocking (normalizeQSet q) S = isVBlocking q S) ∧
    isQuorumSetSane (normalizeQSet q) extraChecks = true ∧
    (∀ p ∈ allSetsOf (normalizeQSet q).innerSets, ∀ n, p ≠ getSingletonQSet n) ∧
    normalizeQSet (normalizeQSet q) = normalizeQSet q := by
  obtain ⟨hrange, hnodup⟩ := isQuorumSetSane_iff.mp h
  have hnormal := normal_normalizeQSet q
  refine ⟨fun S => ⟨?_, ?_⟩, ?_, fun p hp n => hnormal.single_of_mem hp n,
    hnormal.normalizeQSet_eq⟩
  · rw [isQuorumSlice_eq_sat hrange.normalizeQSet.positive, isQuorumSlice_eq_sat hrange.positive]
    exact sat_normalizeQSet rfl q
  · rw [isVBlocking_eq_sat hrange.normalizeQSet.positive, isVBlocking_eq_sat hrange.positive]
    exact sat_normalizeQSet (by decide) q
  · rw [isQuorumSetSane_iff]
    exact ⟨hrange.normalizeQSet, (forAllNodes_normalizeQSet q).nodup_iff.mpr hnodup⟩

/-- `{ t: 1, { t: 1, v0, { t: 1, v1 }, { t: 1, v2, v3 } } }` -/
theorem normalizeQSet_spec_wrapper :
    ∃ q : SCPQuorumSet, isQuorumSetSane q false = true ∧
      normalizeQSet q = .mk 1 [0, 1] [.mk 1 [2, 3] []] ∧
      ∀ S, isQuorumSlice (normalizeQSet q) S = isQuorumSlice q S ∧
        isVBlocking (normalizeQSet q) S = isVBlocking q S := by
  have hsane : isQuorumSetSane (.mk 1 [] [.mk 1 [0] [.mk 1 [1] [], .mk 1 [2, 3] []]]) false =
      true := by decide
  exact ⟨_, hsane, rfl, (normalizeQSet_spec _ false hsane).1⟩

end SmartCore.SCP
