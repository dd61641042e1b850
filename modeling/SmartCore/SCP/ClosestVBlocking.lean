import SmartCore.Lib.Sorting
import SmartCore.SCP.QuorumSets
import Mathlib.Algebra.Order.BigOperators.Group.List
import Mathlib.Data.List.Flatten
import Mathlib.Data.List.Sort
import Mathlib.Data.List.Perm.Subperm

/-!
# The closest v-blocking set

`findClosestVBlocking` looks for the fewest of the given nodes that, together with the nodes of the
quorum set that are not given, are v-blocking. An entry costs nothing if it is blocked already, a
given validator costs one node, and an inner set what `findClosestVBlocking` says. The cheapest
entries are taken: validators first, then the inner sets by size.

A node that is excluded can neither be given nor be missing. An inner set that cannot be blocked
without it has no answer, but it has to give one, and an empty one counts as blocked. So the result
is right for all sets of nodes if and only if no inner set depends on the excluded node
(`findClosestVBlocking_iff`).
-/

namespace SmartCore.SCP

open SCPQuorumSet ThresholdTree

/-! ## The code -/

section Code

variable (nodes : List NodeID) (excluded : Option NodeID)

/-- The first `left` elements. In `size_t` a negative number is larger than any size. -/
def firstOf {β : Type} (left : ℤ) (l : List β) : List β :=
  if 0 ≤ left then l.take left.toNat else l

/-- What an entry says: it does not count, it is blocked already, or it takes nodes to block it. -/
inductive Answer (β : Type) where
  | excluded
  | blocked
  | takes (b : β)
deriving DecidableEq, Repr

/-- A loop over entries: how many are left to block, and what the others take. `none` if the quorum
set is blocked already. -/
def scan {β : Type} : List (Answer β) → ℤ → Option (ℤ × List β)
  | [], leftTillBlock => some (leftTillBlock, [])
  | .excluded :: answers, leftTillBlock => scan answers leftTillBlock
  | .blocked :: answers, leftTillBlock =>
    if leftTillBlock - 1 = 0 then none else scan answers (leftTillBlock - 1)
  | .takes b :: answers, leftTillBlock =>
    (scan answers leftTillBlock).map fun r => (r.1, b :: r.2)

def validatorAnswer (validator : NodeID) : Answer NodeID :=
  if excluded = some validator then .excluded
  else if validator ∈ nodes then .takes validator
  else .blocked

def innerAnswer (v : List NodeID) : Answer (List NodeID) :=
  if v.length = 0 then .blocked else .takes v

/-- The fewest entries that are left to block: validators, then the smallest of the others. -/
def cheapest (leftTillBlock : ℤ) (res : List NodeID) (resInternals : List (List NodeID)) :
    List NodeID :=
  let res := firstOf leftTillBlock res
  res ++ (firstOf (leftTillBlock - res.length)
    (resInternals.insertionSort fun v₁ v₂ => v₁.length ≤ v₂.length)).flatten

mutual

/-- The fewest of `nodes` that block the quorum set, with its nodes that are not in `nodes`. -/
def findClosestVBlocking : SCPQuorumSet → List NodeID
  | .mk threshold validators innerSets =>
    match scan (validators.map (validatorAnswer nodes excluded))
        (1 + validators.length + innerSets.length - threshold.val) with
    | none => []
    | some (leftTillBlock, res) =>
      match scan ((closestOfInnerSets innerSets).map innerAnswer) leftTillBlock with
      | none => []
      | some (leftTillBlock, resInternals) => cheapest leftTillBlock res resInternals

def closestOfInnerSets : List SCPQuorumSet → List (List NodeID)
  | [] => []
  | inner :: innerSets => findClosestVBlocking inner :: closestOfInnerSets innerSets

end

end Code

/-! ## The loops -/

/-- A node that is missing already. -/
def free (nodes : List NodeID) (excluded : Option NodeID) (n : NodeID) : Bool :=
  decide (excluded ≠ some n ∧ n ∉ nodes)

/-- A node that can be used. -/
def usable (nodes : List NodeID) (excluded : Option NodeID) (n : NodeID) : Bool :=
  decide (excluded ≠ some n ∧ n ∈ nodes)

def Answer.isBlocked {β : Type} : Answer β → Bool
  | .blocked => true
  | _ => false

def Answer.taken {β : Type} : Answer β → Option β
  | .takes b => some b
  | _ => none

theorem scan_eq {β : Type} {answers : List (Answer β)} {left : ℤ} (h : 1 ≤ left) :
    scan answers left =
      if left ≤ answers.countP Answer.isBlocked then none
      else some (left - answers.countP Answer.isBlocked, answers.filterMap Answer.taken) := by
  induction answers generalizing left with
  | nil =>
    rw [scan, List.countP_nil, if_neg (by push_cast; omega)]
    simp
  | cons answer answers ih =>
    cases answer with
    | excluded =>
      rw [scan, ih h, List.countP_cons_of_neg (by simp [Answer.isBlocked])]
      rfl
    | blocked =>
      rw [scan, List.countP_cons_of_pos (by rfl)]
      by_cases hone : left - 1 = 0
      · rw [if_pos hone, if_pos (by push_cast; omega)]
      · rw [if_neg hone, ih (by omega)]
        by_cases hle : left - 1 ≤ answers.countP Answer.isBlocked
        · rw [if_pos hle, if_pos (by push_cast; omega)]
        · rw [if_neg hle, if_neg (by push_cast; omega)]
          push_cast
          rw [show left - 1 - (answers.countP Answer.isBlocked : ℤ) =
            left - (answers.countP Answer.isBlocked + 1) by omega]
          rfl
    | takes b =>
      rw [scan, ih h, List.countP_cons_of_neg (by simp [Answer.isBlocked])]
      split_ifs with hle
      · rfl
      · rfl

section Loops

variable {nodes : List NodeID} {excluded : Option NodeID}

theorem closestOfInnerSets_eq (i : List SCPQuorumSet) :
    closestOfInnerSets nodes excluded i = i.map (findClosestVBlocking nodes excluded) := by
  induction i with
  | nil => rfl
  | cons q qs ih => rw [closestOfInnerSets, ih, List.map_cons]

theorem countP_validatorAnswer (v : List NodeID) :
    (v.map (validatorAnswer nodes excluded)).countP Answer.isBlocked =
      v.countP (free nodes excluded) := by
  rw [List.countP_map]
  refine List.countP_congr fun n _ => ?_
  rw [Function.comp_apply, validatorAnswer, free]
  split_ifs with hex hn <;> simp [Answer.isBlocked, *]

theorem filterMap_validatorAnswer (v : List NodeID) :
    (v.map (validatorAnswer nodes excluded)).filterMap Answer.taken =
      v.filter (usable nodes excluded) := by
  rw [List.filterMap_map, ← List.filterMap_eq_filter]
  refine List.filterMap_congr fun n _ => ?_
  rw [Function.comp_apply, validatorAnswer]
  split_ifs with hex hn <;> simp [Answer.taken, Option.guard, usable, *]

theorem countP_innerAnswer (vs : List (List NodeID)) :
    (vs.map innerAnswer).countP Answer.isBlocked = vs.countP List.isEmpty := by
  rw [List.countP_map]
  refine List.countP_congr fun v _ => ?_
  rw [Function.comp_apply, innerAnswer]
  cases v <;> simp [Answer.isBlocked]

theorem filterMap_innerAnswer (vs : List (List NodeID)) :
    (vs.map innerAnswer).filterMap Answer.taken = vs.filter fun v => !v.isEmpty := by
  rw [List.filterMap_map, ← List.filterMap_eq_filter]
  refine List.filterMap_congr fun v _ => ?_
  rw [Function.comp_apply, innerAnswer]
  cases v <;> simp [Answer.taken, Option.guard]

/-- An entry takes nodes. -/
def costs (nodes : List NodeID) (excluded : Option NodeID) (q : SCPQuorumSet) : Bool :=
  !(findClosestVBlocking nodes excluded q).isEmpty

/-- The inner sets that take nodes, the cheapest first. -/
def byCost (nodes : List NodeID) (excluded : Option NodeID) (i : List SCPQuorumSet) :
    List SCPQuorumSet :=
  (i.filter (costs nodes excluded)).insertionSort fun p p' =>
    (findClosestVBlocking nodes excluded p).length ≤ (findClosestVBlocking nodes excluded p').length

theorem firstOf_natCast {β : Type} (k : ℕ) (l : List β) : firstOf k l = l.take k := by
  rw [firstOf, if_pos (Int.natCast_nonneg k), Int.toNat_natCast]

/-- **What the function computes**, of a quorum set in range. -/
theorem findClosestVBlocking_mk {t : Uint32} {v : List NodeID} {i : List SCPQuorumSet}
    (ht : t.val ≤ v.length + i.length) :
    findClosestVBlocking nodes excluded (.mk t v i) =
      let need := v.length + i.length + 1 - t.val
      let blocked := v.countP (free nodes excluded) + i.countP fun q => !costs nodes excluded q
      let res := (v.filter (usable nodes excluded)).take (need - blocked)
      if need ≤ blocked then []
      else res ++ ((byCost nodes excluded i).take (need - blocked - res.length)).flatMap
        (findClosestVBlocking nodes excluded) := by
  have hneed : (1 + v.length + i.length - t.val : ℤ) = (v.length + i.length + 1 - t.val : ℕ) := by
    omega
  have hcount : ((i.map (findClosestVBlocking nodes excluded)).map innerAnswer).countP
      Answer.isBlocked = i.countP fun q => !costs nodes excluded q := by
    rw [countP_innerAnswer, List.countP_map]
    exact List.countP_congr fun q _ => by simp [costs]
  have htaken : ((i.map (findClosestVBlocking nodes excluded)).map innerAnswer).filterMap
      Answer.taken = (i.filter (costs nodes excluded)).map (findClosestVBlocking nodes excluded) := by
    rw [filterMap_innerAnswer, List.filter_map]
    rfl
  have hsort : (((i.filter (costs nodes excluded)).map
      (findClosestVBlocking nodes excluded)).insertionSort fun v₁ v₂ => v₁.length ≤ v₂.length) =
        (byCost nodes excluded i).map (findClosestVBlocking nodes excluded) := by
    exact (List.map_insertionSort
      (r := fun p p' => (findClosestVBlocking nodes excluded p).length ≤
        (findClosestVBlocking nodes excluded p').length) (s := fun v₁ v₂ => v₁.length ≤ v₂.length)
      (findClosestVBlocking nodes excluded) (i.filter (costs nodes excluded))
      fun _ _ _ _ => Iff.rfl).symm
  rw [findClosestVBlocking, hneed, scan_eq (by omega), countP_validatorAnswer,
    filterMap_validatorAnswer, closestOfInnerSets_eq]
  dsimp only
  set need := v.length + i.length + 1 - t.val
  set a := v.countP (free nodes excluded)
  by_cases ha : (need : ℤ) ≤ a
  · rw [if_pos ha, if_pos (by omega)]
  · rw [if_neg ha]
    dsimp only
    rw [scan_eq (by omega), hcount, htaken]
    set b := i.countP fun q => !costs nodes excluded q
    by_cases hb : (need - a : ℤ) ≤ b
    · rw [if_pos hb, if_pos (by omega)]
    · have hleft : (need - a - b : ℤ) = (need - (a + b) : ℕ) := by omega
      rw [if_neg hb, if_neg (by omega)]
      dsimp only
      rw [cheapest, hleft, firstOf_natCast, hsort]
      have hlen := List.length_take_le (need - (a + b)) (v.filter (usable nodes excluded))
      set res := (v.filter (usable nodes excluded)).take (need - (a + b))
      have hrest : ((need - (a + b) : ℕ) - res.length : ℤ) =
          (need - (a + b) - res.length : ℕ) := by omega
      rw [hrest, firstOf_natCast, ← List.map_take, List.flatMap_def]

end Loops

/-! ## The cheapest choice -/

/-- The quorum set has no slice outside of `S`. -/
def blocks (S : NodeID → Bool) (q : SCPQuorumSet) : Bool := sat dualNeed S q.toTree

theorem blocks_mk {S : NodeID → Bool} {t : Uint32} {v : List NodeID} {i : List SCPQuorumSet} :
    blocks S (.mk t v i) = true ↔
      v.length + i.length + 1 - t.val ≤ v.countP S + i.countP (blocks S) := by
  have hv : (v.map ThresholdTree.leaf).countP (sat dualNeed S) = v.countP S := by
    rw [List.countP_map]
    exact List.countP_congr fun n _ => by rw [Function.comp_apply, sat]
  have hi : (i.map toTree).countP (sat dualNeed S) = i.countP (blocks S) := by
    rw [List.countP_map]
    rfl
  rw [blocks, toTree_mk, sat_node, dualNeed, List.countP_append, hv, hi]
  simp only [List.length_append, List.length_map]

theorem blocks_congr {S S' : NodeID → Bool} {q : SCPQuorumSet}
    (h : ∀ n ∈ q.forAllNodesInternal, S n = S' n) : blocks S q = blocks S' q := by
  rw [← leaves_toTree] at h
  exact sat_congr h

theorem blocks_mono {S S' : NodeID → Bool} {q : SCPQuorumSet}
    (h : ∀ n ∈ q.forAllNodesInternal, S n = true → S' n = true) (hq : blocks S q = true) :
    blocks S' q = true := by
  rw [← leaves_toTree] at h
  exact sat_mono h hq

/-- The nodes that are missing already, and those of `H`. -/
def freeAnd (nodes : List NodeID) (excluded : Option NodeID) (H : List NodeID) (n : NodeID) : Bool :=
  free nodes excluded n || decide (n ∈ H)

/-- `R` is a smallest set of usable nodes that is enough. -/
structure IsClosest (nodes : List NodeID) (excluded : Option NodeID) (q : SCPQuorumSet)
    (R : List NodeID) : Prop where
  nodup : R.Nodup
  given : ∀ n ∈ R, usable nodes excluded n = true ∧ n ∈ q.forAllNodesInternal
  enough : blocks (freeAnd nodes excluded R) q = true
  least : ∀ H : List NodeID, (∀ n ∈ H, usable nodes excluded n = true) →
    blocks (freeAnd nodes excluded H) q = true → R.length ≤ H.length

section Counting

variable {β : Type} {p q r : β → Bool} {l : List β}

theorem countP_add_le (hp : ∀ b ∈ l, p b = true → r b = true)
    (hq : ∀ b ∈ l, q b = true → r b = true) (hnot : ∀ b ∈ l, p b = true → q b = false) :
    l.countP p + l.countP q ≤ l.countP r := by
  induction l with
  | nil => simp
  | cons b l ih =>
    have htail := ih (fun b hb => hp b (List.mem_cons_of_mem _ hb))
      (fun b hb => hq b (List.mem_cons_of_mem _ hb)) fun b hb => hnot b (List.mem_cons_of_mem _ hb)
    have h₁ := hp b List.mem_cons_self
    have h₂ := hq b List.mem_cons_self
    have h₃ := hnot b List.mem_cons_self
    simp only [List.countP_cons]
    cases hpb : p b <;> cases hpb' : q b <;> cases hrb : r b <;> simp_all <;> omega

theorem countP_le_add (h : ∀ b ∈ l, r b = true → p b = true ∨ q b = true) :
    l.countP r ≤ l.countP p + l.countP q := by
  induction l with
  | nil => simp
  | cons b l ih =>
    have htail := ih fun b hb => h b (List.mem_cons_of_mem _ hb)
    have hb := h b List.mem_cons_self
    simp only [List.countP_cons]
    cases hpb : p b <;> cases hpb' : q b <;> cases hrb : r b <;> simp_all <;> omega

end Counting

section Closest

variable {nodes : List NodeID} {excluded : Option NodeID} {q : SCPQuorumSet}

theorem usable_not_free {n : NodeID} (h : free nodes excluded n = true) :
    usable nodes excluded n = false := by
  simp only [free, usable, decide_eq_true_eq, decide_eq_false_iff_not, not_and] at h ⊢
  exact fun _ => h.2

/-- Without any node more: the quorum set is blocked already. -/
theorem IsClosest.eq_nil_iff {R : List NodeID} (h : IsClosest nodes excluded q R) :
    R = [] ↔ blocks (free nodes excluded) q = true := by
  have hnil : ∀ n, freeAnd nodes excluded [] n = free nodes excluded n := fun n => by
    simp [freeAnd]
  constructor
  · rintro rfl
    rw [← blocks_congr fun n _ => hnil n]
    exact h.enough
  · intro hfree
    have := h.least [] (fun n hn => nomatch hn) (by rwa [blocks_congr fun n _ => hnil n])
    exact List.length_eq_zero_iff.mp (Nat.le_zero.mp this)

theorem nodup_mk {t : Uint32} {v : List NodeID} {i : List SCPQuorumSet}
    (h : (SCPQuorumSet.mk t v i).forAllNodesInternal.Nodup) :
    v.Nodup ∧ (i.flatMap forAllNodesInternal).Nodup ∧
      v.Disjoint (i.flatMap forAllNodesInternal) := by
  rw [forAllNodesInternal, forAllNodesOf_eq] at h
  exact List.nodup_append'.mp h

section Step

variable {t : Uint32} {v : List NodeID} {i : List SCPQuorumSet}

theorem costs_iff (h : ∀ q ∈ i, IsClosest nodes excluded q (findClosestVBlocking nodes excluded q))
    (hq : q ∈ i) : costs nodes excluded q = false ↔ blocks (free nodes excluded) q = true := by
  rw [← (h q hq).eq_nil_iff, costs, Bool.not_eq_false', List.isEmpty_iff]

theorem byCost_perm (i : List SCPQuorumSet) :
    (byCost nodes excluded i).Perm (i.filter (costs nodes excluded)) :=
  List.perm_insertionSort _ _

theorem mem_of_mem_byCost {k : ℕ} (hq : q ∈ (byCost nodes excluded i).take k) :
    q ∈ i ∧ costs nodes excluded q = true :=
  List.mem_filter.mp ((byCost_perm i).mem_iff.mp (List.mem_of_mem_take hq))

/-- The chosen entries are blocked, and those that were blocked before. -/
theorem enough_of_take
    (h : ∀ q ∈ i, IsClosest nodes excluded q (findClosestVBlocking nodes excluded q))
    {R : List NodeID} {j k : ℕ} (hj : j ≤ (v.filter (usable nodes excluded)).length)
    (hk : k ≤ (byCost nodes excluded i).length)
    (hv : ∀ n ∈ (v.filter (usable nodes excluded)).take j, n ∈ R)
    (hi : ∀ q ∈ (byCost nodes excluded i).take k, findClosestVBlocking nodes excluded q ⊆ R) :
    v.countP (free nodes excluded) + (i.countP fun q => !costs nodes excluded q) + j + k ≤
      v.countP (freeAnd nodes excluded R) + i.countP (blocks (freeAnd nodes excluded R)) := by
  set S := freeAnd nodes excluded R
  have hfree : ∀ n, free nodes excluded n = true → S n = true := fun n hn => by
    simp [S, freeAnd, hn]
  have hvalidators : v.countP (free nodes excluded) + j ≤ v.countP S := by
    have hsplit := countP_add_le (l := v) (p := free nodes excluded)
      (q := fun n => S n && usable nodes excluded n) (r := S) (fun n _ => hfree n)
      (fun n _ hn => (Bool.and_eq_true_iff.mp hn).1) fun n _ hn => by
        rw [usable_not_free hn, Bool.and_false]
    rw [← List.countP_filter] at hsplit
    have htake : j ≤ (v.filter (usable nodes excluded)).countP S := by
      calc j = ((v.filter (usable nodes excluded)).take j).length := by
            rw [List.length_take, min_eq_left hj]
        _ = ((v.filter (usable nodes excluded)).take j).countP S :=
            (List.countP_eq_length.mpr fun n hn => by simp [S, freeAnd, hv n hn]).symm
        _ ≤ _ := (List.take_sublist _ _).countP_le
    omega
  have hinner : (i.countP fun q => !costs nodes excluded q) + k ≤ i.countP (blocks S) := by
    have hsplit := countP_add_le (l := i) (p := fun q => !costs nodes excluded q)
      (q := fun q => blocks S q && costs nodes excluded q) (r := blocks S) (fun q hq hc => ?_)
      (fun q _ hq => (Bool.and_eq_true_iff.mp hq).1) fun q _ hc => by
        rw [show costs nodes excluded q = false by simpa using hc, Bool.and_false]
    · rw [← List.countP_filter, ← (byCost_perm i).countP_eq] at hsplit
      have htake : k ≤ (byCost nodes excluded i).countP (blocks S) := by
        calc k = ((byCost nodes excluded i).take k).length := by
              rw [List.length_take, min_eq_left hk]
          _ = ((byCost nodes excluded i).take k).countP (blocks S) := by
              refine (List.countP_eq_length.mpr fun q hq => ?_).symm
              refine blocks_mono (fun n _ hn => ?_) (h q (mem_of_mem_byCost hq).1).enough
              rcases Bool.or_eq_true_iff.mp hn with hn | hn
              · exact hfree n hn
              · simp [S, freeAnd, hi q hq (of_decide_eq_true hn)]
          _ ≤ _ := (List.take_sublist _ _).countP_le
      omega
    · exact blocks_mono (fun n _ => hfree n) ((costs_iff h hq).mp (by simpa using hc))
  omega

/-- Nodes that are enough are at least one for each validator that they contain and, for each inner
set that they block, as many as that takes. -/
theorem cost_le (h : ∀ q ∈ i, IsClosest nodes excluded q (findClosestVBlocking nodes excluded q))
    (hnodup : (SCPQuorumSet.mk t v i).forAllNodesInternal.Nodup) {H : List NodeID}
    (hH : ∀ n ∈ H, usable nodes excluded n = true) :
    (v.countP fun n => decide (n ∈ H)) +
      (((i.filter (costs nodes excluded)).filter (blocks (freeAnd nodes excluded H))).map
        fun q => (findClosestVBlocking nodes excluded q).length).sum ≤ H.length := by
  set B := (i.filter (costs nodes excluded)).filter (blocks (freeAnd nodes excluded H))
  have hB : B.Sublist i := List.filter_sublist.trans List.filter_sublist
  have hsub : ((v ++ B.flatMap forAllNodesInternal).filter fun n => decide (n ∈ H)).Subperm H := by
    refine List.Nodup.subperm (List.Nodup.filter _ ?_) fun n hn => ?_
    · rw [forAllNodesInternal, forAllNodesOf_eq] at hnodup
      exact hnodup.sublist ((hB.flatMap _).append_left v)
    · exact of_decide_eq_true (List.mem_filter.mp hn).2
  have hlen := hsub.length_le
  rw [List.filter_append, List.length_append, ← List.countP_eq_length_filter] at hlen
  refine le_trans (Nat.add_le_add_left ?_ _) hlen
  rw [List.filter_flatMap, List.length_flatMap]
  refine List.sum_le_sum fun q hq => ?_
  have hq' := hB.subset hq
  refine (h q hq').least _ (fun n hn => hH n (of_decide_eq_true (List.mem_filter.mp hn).2)) ?_
  rw [← (List.mem_filter.mp hq).2]
  refine blocks_congr fun n hn => ?_
  simp [freeAnd, hn]

theorem sorted_byCost (i : List SCPQuorumSet) :
    ((byCost nodes excluded i).map fun q => (findClosestVBlocking nodes excluded q).length).Pairwise
      (· ≤ ·) := by
  have : IsTrans SCPQuorumSet fun p p' => (findClosestVBlocking nodes excluded p).length ≤
      (findClosestVBlocking nodes excluded p').length := ⟨fun _ _ _ h h' => le_trans h h'⟩
  have : Std.Total fun p p' => (findClosestVBlocking nodes excluded p).length ≤
      (findClosestVBlocking nodes excluded p').length := ⟨fun _ _ => le_total _ _⟩
  exact List.pairwise_map.mpr (List.pairwise_insertionSort _ _)

/-- Every inner set that does not cost nothing costs something. -/
theorem one_le_cost (hq : costs nodes excluded q = true) :
    1 ≤ (findClosestVBlocking nodes excluded q).length := by
  rw [costs, Bool.not_eq_true', List.isEmpty_eq_false_iff] at hq
  exact List.length_pos_iff.mpr hq

/-- There are enough entries that can be made to block: all but the excluded node. -/
theorem le_usable_add_costs (nodes : List NodeID)
    (hall : blocks (fun n => decide (excluded ≠ some n)) (.mk t v i) = true) :
    v.length + i.length + 1 - t.val ≤
      v.countP (free nodes excluded) + (i.countP fun q => !costs nodes excluded q) +
        (v.filter (usable nodes excluded)).length + (byCost nodes excluded i).length := by
  have hcount : v.countP (fun n => decide (excluded ≠ some n)) ≤
      v.countP (free nodes excluded) + (v.filter (usable nodes excluded)).length := by
    rw [← List.countP_eq_length_filter]
    refine countP_le_add fun n _ hn => ?_
    simp only [free, usable, decide_eq_true_eq] at hn ⊢
    by_cases hmem : n ∈ nodes
    · exact Or.inr ⟨hn, hmem⟩
    · exact Or.inl ⟨hn, hmem⟩
  have hlen : (i.countP fun q => !costs nodes excluded q) + (byCost nodes excluded i).length =
      i.length := by
    rw [(byCost_perm i).length_eq, ← List.countP_eq_length_filter, add_comm]
    have := List.length_eq_countP_add_countP (l := i) (costs nodes excluded)
    simp only [Bool.not_eq_true, Bool.decide_eq_false] at this
    exact this.symm
  have hcountP := List.countP_le_length (l := i) (p := blocks fun n => decide (excluded ≠ some n))
  rw [blocks_mk] at hall
  omega

section Chosen

variable (h : ∀ q ∈ i, IsClosest nodes excluded q (findClosestVBlocking nodes excluded q))
include h

/-- Nodes that are chosen are usable nodes of the quorum set. -/
theorem given_of_take {j k : ℕ} {n : NodeID} :
    (n ∈ (v.filter (usable nodes excluded)).take j → usable nodes excluded n = true ∧ n ∈ v) ∧
    (n ∈ ((byCost nodes excluded i).take k).flatMap (findClosestVBlocking nodes excluded) →
      usable nodes excluded n = true ∧ n ∈ i.flatMap forAllNodesInternal) := by
  refine ⟨fun hn => (List.mem_filter.mp (List.mem_of_mem_take hn)).symm, fun hn => ?_⟩
  obtain ⟨q, hq, hn⟩ := List.mem_flatMap.mp hn
  obtain ⟨hqi, -⟩ := mem_of_mem_byCost hq
  obtain ⟨husable, hmem⟩ := (h q hqi).given n hn
  exact ⟨husable, List.mem_flatMap.mpr ⟨q, hqi, hmem⟩⟩

/-- No node is chosen twice. -/
theorem nodup_of_take (hnodup : (SCPQuorumSet.mk t v i).forAllNodesInternal.Nodup) (j k : ℕ) :
    ((v.filter (usable nodes excluded)).take j ++
      ((byCost nodes excluded i).take k).flatMap (findClosestVBlocking nodes excluded)).Nodup := by
  obtain ⟨hv, hi, hdisjoint⟩ := nodup_mk hnodup
  have hsub : ((byCost nodes excluded i).take k).Subperm i :=
    (List.take_sublist _ _).subperm.trans ((byCost_perm i).subperm.trans
      List.filter_sublist.subperm)
  rw [List.nodup_append']
  refine ⟨(hv.filter _).sublist (List.take_sublist _ _), ?_, fun n hn hn' => ?_⟩
  · rw [List.nodup_flatMap]
    refine ⟨fun q hq => (h q (mem_of_mem_byCost hq).1).nodup, ?_⟩
    obtain ⟨l, hperm, hl⟩ := hsub
    refine (hperm.pairwise_iff fun h => List.disjoint_symm h).mp ?_
    refine ((List.nodup_flatMap.mp hi).2.sublist hl).imp_of_mem fun hp hp' hpp' => ?_
    intro n hn hn'
    exact hpp' ((h _ (hl.subset hp)).given n hn).2 ((h _ (hl.subset hp')).given n hn').2
  · exact hdisjoint ((given_of_take h (k := k)).1 hn).2 ((given_of_take h (v := v) (j := j)).2 hn').2

/-- Nodes that make as many entries block are no fewer. -/
theorem length_le_of_blocks (hnodup : (SCPQuorumSet.mk t v i).forAllNodesInternal.Nodup)
    {left : ℕ} (hleft : v.length + i.length + 1 - t.val =
      v.countP (free nodes excluded) + (i.countP fun q => !costs nodes excluded q) + left)
    {H : List NodeID} (hH : ∀ n ∈ H, usable nodes excluded n = true)
    (hblocks : blocks (freeAnd nodes excluded H) (.mk t v i) = true) {res : ℕ}
    (hres : res = min left (v.filter (usable nodes excluded)).length) :
    res + (((byCost nodes excluded i).take (left - res)).map fun q =>
      (findClosestVBlocking nodes excluded q).length).sum ≤ H.length := by
  have hcost := cost_le (t := t) h hnodup hH
  set B := (i.filter (costs nodes excluded)).filter (blocks (freeAnd nodes excluded H))
  -- how many entries the nodes block that were not blocked
  have hcount : left ≤ (v.countP fun n => decide (n ∈ H)) + B.length := by
    have hvalidators : v.countP (freeAnd nodes excluded H) ≤
        v.countP (free nodes excluded) + v.countP fun n => decide (n ∈ H) :=
      countP_le_add fun n _ hn => Bool.or_eq_true_iff.mp hn
    have hinner : i.countP (blocks (freeAnd nodes excluded H)) ≤
        (i.countP fun q => !costs nodes excluded q) + B.length := by
      rw [← List.countP_eq_length_filter, List.countP_filter]
      refine countP_le_add fun q _ hq => ?_
      cases hc : costs nodes excluded q
      · exact Or.inl rfl
      · exact Or.inr (by rw [hq]; rfl)
    rw [blocks_mk] at hblocks
    omega
  have hfew : (v.countP fun n => decide (n ∈ H)) ≤ (v.filter (usable nodes excluded)).length := by
    rw [← List.countP_eq_length_filter]
    exact List.countP_mono_left fun n _ hn => hH n (of_decide_eq_true hn)
  have hgreedy := @sum_take_le _ (B.map fun q => (findClosestVBlocking nodes excluded q).length)
    (@sorted_byCost nodes excluded i) (fun c hc => ?_) ?_ (left - res) ?_
  · rw [← List.map_take, List.length_map] at hgreedy
    omega
  · obtain ⟨q, hq, rfl⟩ := List.mem_map.mp hc
    exact one_le_cost (List.mem_filter.mp ((byCost_perm i).mem_iff.mp hq)).2
  · obtain ⟨l, hperm, hl⟩ := List.filter_sublist.subperm.trans (byCost_perm i).symm.subperm
    exact ⟨l.map _, hperm.map _, hl.map _⟩
  · rw [List.length_map]
    omega

end Chosen

/-- **One level**: with the right answers for the inner sets the answer is right, if there is one. -/
theorem isClosest_mk (ht : t.val ≤ v.length + i.length)
    (hnodup : (SCPQuorumSet.mk t v i).forAllNodesInternal.Nodup)
    (h : ∀ q ∈ i, IsClosest nodes excluded q (findClosestVBlocking nodes excluded q))
    (hall : blocks (fun n => decide (excluded ≠ some n)) (.mk t v i) = true) :
    IsClosest nodes excluded (.mk t v i) (findClosestVBlocking nodes excluded (.mk t v i)) := by
  have hmany := le_usable_add_costs nodes hall
  rw [findClosestVBlocking_mk ht]
  dsimp only
  set need := v.length + i.length + 1 - t.val with hneed
  set a := v.countP (free nodes excluded)
  set b := i.countP fun q => !costs nodes excluded q
  by_cases hle : need ≤ a + b
  · -- blocked already
    rw [if_pos hle]
    refine ⟨List.nodup_nil, fun n hn => (List.not_mem_nil hn).elim, ?_,
      fun H _ _ => Nat.zero_le _⟩
    have := enough_of_take (v := v) h (R := []) (Nat.zero_le _) (Nat.zero_le _)
      (fun n hn => by simp at hn) fun q hq => by simp at hq
    rw [blocks_mk]
    omega
  · rw [if_neg hle]
    set u := v.filter (usable nodes excluded)
    set left := need - (a + b) with hleft
    have hres : (u.take left).length = min left u.length := List.length_take
    have hresle : (u.take left).length ≤ u.length := by omega
    set k := left - (u.take left).length
    refine ⟨nodup_of_take h hnodup _ _, fun n hn => ?_, ?_, fun H hH hblocks => ?_⟩
    · rw [forAllNodesInternal, forAllNodesOf_eq, List.mem_append]
      rcases List.mem_append.mp hn with hn | hn
      · exact ((given_of_take h (k := k)).1 hn).imp_right Or.inl
      · exact ((given_of_take h (v := v) (j := left)).2 hn).imp_right Or.inr
    · have henough := enough_of_take (v := v) h (R := u.take left ++
          ((byCost nodes excluded i).take k).flatMap (findClosestVBlocking nodes excluded))
        (j := (u.take left).length) (k := k) hresle (by omega) (fun n hn => ?_)
        fun q hq n hn => ?_
      · rw [blocks_mk]
        omega
      · refine List.mem_append_left _ ?_
        rwa [hres, ← List.take_take, List.take_length] at hn
      · exact List.mem_append_right _ (List.mem_flatMap.mpr ⟨q, hq, hn⟩)
    · rw [List.length_append, List.length_flatMap]
      exact length_le_of_blocks h hnodup (by omega) hH hblocks hres

end Step

/-- The quorum set can be blocked without the excluded node. -/
def canBlock (excluded : Option NodeID) (q : SCPQuorumSet) : Bool :=
  blocks (fun n => decide (excluded ≠ some n)) q

/-- **The answer is right** if every set can be blocked without the excluded node. -/
theorem isClosest_of_canBlock {extraChecks : Bool} (hrange : InRange extraChecks q)
    (hnodup : q.forAllNodesInternal.Nodup) (h : ∀ p ∈ q.allSets, canBlock excluded p = true) :
    IsClosest nodes excluded q (findClosestVBlocking nodes excluded q) := by
  induction q using SCPQuorumSet.induct with
  | mk t v i ih =>
    obtain ⟨hself, hinner⟩ := inRange_mk.mp hrange
    have hi := (List.nodup_flatMap.mp (nodup_mk hnodup).2.1).1
    refine isClosest_mk hself.2.1 hnodup (fun p hp => ?_) (h _ ?_)
    · exact ih p hp (hinner p hp) (hi p hp) fun r hr => h r (allSets_subset hp hr)
    · rw [allSets]
      exact List.mem_cons_self

/-! ## The excluded node -/

/-- Only the nodes of the quorum set matter. -/
theorem findClosestVBlocking_congr {nodes' : List NodeID}
    (h : ∀ n ∈ q.forAllNodesInternal, n ∈ nodes ↔ n ∈ nodes') :
    findClosestVBlocking nodes excluded q = findClosestVBlocking nodes' excluded q := by
  induction q using SCPQuorumSet.induct with
  | mk t v i ih =>
    rw [forAllNodesInternal, forAllNodesOf_eq] at h
    have hv : v.map (validatorAnswer nodes excluded) = v.map (validatorAnswer nodes' excluded) := by
      refine List.map_congr_left fun n hn => ?_
      rw [validatorAnswer, validatorAnswer]
      simp only [h n (List.mem_append_left _ hn)]
    have hi : closestOfInnerSets nodes excluded i = closestOfInnerSets nodes' excluded i := by
      rw [closestOfInnerSets_eq, closestOfInnerSets_eq]
      refine List.map_congr_left fun p hp => ih p hp fun n hn => h n ?_
      exact List.mem_append_right _ (List.mem_flatMap.mpr ⟨p, hp, hn⟩)
    rw [findClosestVBlocking, findClosestVBlocking, hv, hi]

/-- If none of its nodes is given, there is nothing to take. -/
theorem findClosestVBlocking_eq_nil {extraChecks : Bool} (hrange : InRange extraChecks q)
    (h : ∀ n ∈ q.forAllNodesInternal, n ∉ nodes) : findClosestVBlocking nodes excluded q = [] := by
  induction q using SCPQuorumSet.induct with
  | mk t v i ih =>
    rw [forAllNodesInternal, forAllNodesOf_eq] at h
    obtain ⟨hself, hinner⟩ := inRange_mk.mp hrange
    have hv : v.filter (usable nodes excluded) = [] := by
      rw [List.filter_eq_nil_iff]
      intro n hn
      simp [usable, h n (List.mem_append_left _ hn)]
    have hi : byCost nodes excluded i = [] := by
      rw [← List.length_eq_zero_iff, (byCost_perm i).length_eq, List.length_eq_zero_iff,
        List.filter_eq_nil_iff]
      intro p hp
      rw [costs, ih p hp (hinner p hp) fun n hn => h n (List.mem_append_right _
        (List.mem_flatMap.mpr ⟨p, hp, hn⟩))]
      simp
    rw [findClosestVBlocking_mk hself.2.1]
    dsimp only
    rw [hv, hi]
    simp

theorem forAllNodes_subset {p : SCPQuorumSet} (hp : p ∈ q.allSets) :
    p.forAllNodesInternal ⊆ q.forAllNodesInternal := by
  induction q using SCPQuorumSet.induct with
  | mk t v i ih =>
    rw [allSets, allSetsOf_eq] at hp
    rcases List.mem_cons.mp hp with rfl | hp
    · exact List.Subset.refl _
    · obtain ⟨r, hr, hp⟩ := List.mem_flatMap.mp hp
      rw [forAllNodesInternal, forAllNodesOf_eq]
      exact fun n hn => List.mem_append_right _ (List.mem_flatMap.mpr ⟨r, hr, ih r hr hp hn⟩)

theorem blocks_all {extraChecks : Bool} (hrange : InRange extraChecks q) {S : NodeID → Bool}
    (h : ∀ n ∈ q.forAllNodesInternal, S n = true) : blocks S q = true := by
  rw [← leaves_toTree] at h
  refine sat_all (fun p hp => ?_) h
  have := hrange.nodes p hp
  rw [dualNeed]
  omega

theorem blocks_none {extraChecks : Bool} (hrange : InRange extraChecks q) {S : NodeID → Bool}
    (h : ∀ n ∈ q.forAllNodesInternal, S n = false) : blocks S q = false := by
  rw [← leaves_toTree] at h
  refine sat_none (fun p hp => ?_) h
  have := hrange.nodes p hp
  rw [dualNeed]
  omega

theorem allSets_trans {p r : SCPQuorumSet} (hp : p ∈ q.allSets) (hr : r ∈ p.allSets) :
    r ∈ q.allSets := by
  induction q using SCPQuorumSet.induct with
  | mk t v i ih =>
    rw [allSets, allSetsOf_eq] at hp
    rcases List.mem_cons.mp hp with rfl | hp
    · exact hr
    · obtain ⟨q, hq, hp⟩ := List.mem_flatMap.mp hp
      exact allSets_subset hq (ih q hq hp)

theorem InRange.of_mem {extraChecks : Bool} {p : SCPQuorumSet} (hrange : InRange extraChecks q)
    (hp : p ∈ q.allSets) : InRange extraChecks p := fun r hr => hrange r (allSets_trans hp hr)

/-- A set that cannot be blocked without the excluded node contains it. -/
theorem mem_of_canBlock_false {extraChecks : Bool} {p : SCPQuorumSet}
    (hrange : InRange extraChecks q) (hp : p ∈ q.allSets) (h : canBlock excluded p = false) :
    ∃ x ∈ q.forAllNodesInternal, excluded = some x := by
  by_contra hno
  push Not at hno
  have hall : canBlock excluded p = true := blocks_all (hrange.of_mem hp) fun n hn =>
    decide_eq_true (hno n (forAllNodes_subset hp hn))
  rw [h] at hall
  cases hall

section Misled

variable {t : Uint32} {v : List NodeID} {r : SCPQuorumSet} {o : List SCPQuorumSet}

/-- Of the other entries, as many are free as leave one to block, and `r` misleads. -/
theorem misled_of_inner {extraChecks : Bool} {given : List NodeID} {x : NodeID} {k : ℕ}
    (hrange : ∀ q ∈ r :: o, InRange extraChecks q) (hk : k ≤ v.length + o.length)
    (hnodup : (v ++ (r :: o).flatMap forAllNodesInternal).Nodup)
    (hx : x ∈ r.forAllNodesInternal) (hgiven : given ⊆ r.forAllNodesInternal)
    (hnil : findClosestVBlocking given (some x) r = [])
    (hblocks : blocks (free given (some x)) r = false) :
    ∃ nodes ⊆ v ++ (r :: o).flatMap forAllNodesInternal,
      (k < v.countP (free nodes (some x)) + (r :: o).countP fun q => !costs nodes (some x) q) ∧
        v.countP (free nodes (some x)) + (r :: o).countP (blocks (free nodes (some x))) ≤ k := by
  obtain ⟨hv, hi, hdisjoint⟩ := List.nodup_append'.mp hnodup
  obtain ⟨hfirst, hothers⟩ := List.pairwise_cons.mp (List.nodup_flatMap.mp hi).2
  have hfirst : ∀ q ∈ o, r.forAllNodesInternal.Disjoint q.forAllNodesInternal := hfirst
  have hmemr : ∀ {n}, n ∈ r.forAllNodesInternal → n ∈ (r :: o).flatMap forAllNodesInternal :=
    fun hn => List.mem_flatMap.mpr ⟨r, List.mem_cons_self, hn⟩
  have hmemo : ∀ {q n}, q ∈ o → n ∈ q.forAllNodesInternal →
      n ∈ (r :: o).flatMap forAllNodesInternal :=
    fun hq hn => List.mem_flatMap.mpr ⟨_, List.mem_cons_of_mem _ hq, hn⟩
  set l := k - v.length
  obtain ⟨nodes, hmem⟩ : ∃ nodes : List NodeID, ∀ n, n ∈ nodes ↔ n ∈ given ∨ n ∈ v.drop k ∨
      ∃ q ∈ o.drop l, n ∈ q.forAllNodesInternal := by
    refine ⟨given ++ (v.drop k ++ (o.drop l).flatMap forAllNodesInternal), fun n => ?_⟩
    simp only [List.mem_append, List.mem_flatMap]
  -- the entries that are free, and the others
  have hfreeV : ∀ n ∈ v.take k, free nodes (some x) n = true := by
    intro n hn
    have hnv := List.mem_of_mem_take hn
    refine decide_eq_true ⟨fun heq => ?_, fun hn' => ?_⟩
    · exact hdisjoint hnv (hmemr (Option.some.inj heq ▸ hx))
    · rcases (hmem n).mp hn' with hn' | hn' | ⟨q, hq, hn'⟩
      · exact hdisjoint hnv (hmemr (hgiven hn'))
      · rw [← List.take_append_drop k v] at hv
        exact (List.nodup_append'.mp hv).2.2 hn hn'
      · exact hdisjoint hnv (hmemo (List.mem_of_mem_drop hq) hn')
  have hfreeO : ∀ q ∈ o.take l, ∀ n ∈ q.forAllNodesInternal, n ∉ nodes := by
    intro q hq n hn hn'
    have hqo := List.mem_of_mem_take hq
    rcases (hmem n).mp hn' with hn' | hn' | ⟨q', hq', hn'⟩
    · exact hfirst q hqo (hgiven hn') hn
    · exact hdisjoint (List.mem_of_mem_drop hn') (hmemo hqo hn)
    · rw [← List.take_append_drop l o] at hothers
      exact (List.pairwise_append.mp hothers).2.2 q hq q' hq' hn hn'
  have hself : ∀ n ∈ r.forAllNodesInternal, n ∈ nodes ↔ n ∈ given := by
    intro n hn
    rw [hmem]
    refine ⟨fun h => h.resolve_right ?_, Or.inl⟩
    rintro (hn' | ⟨q, hq, hn'⟩)
    · exact hdisjoint (List.mem_of_mem_drop hn') (hmemr hn)
    · exact hfirst q (List.mem_of_mem_drop hq) hn hn'
  have hcostsR : costs nodes (some x) r = false := by
    rw [costs, findClosestVBlocking_congr hself, hnil]
    rfl
  have hblocksR : blocks (free nodes (some x)) r = false := by
    rw [← hblocks]
    refine blocks_congr fun n hn => ?_
    simp only [free, hself n hn]
  have hcountV : v.countP (free nodes (some x)) = min k v.length := by
    rw [← List.take_append_drop k v, List.countP_append, List.countP_eq_length.mpr hfreeV,
      List.countP_eq_zero.mpr, List.length_take, add_zero, List.take_append_drop]
    intro n hn
    have : n ∈ nodes := (hmem n).mpr (Or.inr (Or.inl hn))
    simp [free, this]
  have htake : (o.take l).length = l := by
    rw [List.length_take]
    omega
  refine ⟨nodes, fun n hn => ?_, ?_, ?_⟩
  · rw [List.mem_append]
    rcases (hmem n).mp hn with hn | hn | ⟨q, hq, hn⟩
    · exact Or.inr (hmemr (hgiven hn))
    · exact Or.inl (List.mem_of_mem_drop hn)
    · exact Or.inr (hmemo (List.mem_of_mem_drop hq) hn)
  · have hcostsO : l ≤ o.countP fun q => !costs nodes (some x) q := by
      have hall : (o.take l).countP (fun q => !costs nodes (some x) q) = (o.take l).length := by
        refine List.countP_eq_length.mpr fun q hq => ?_
        rw [costs, findClosestVBlocking_eq_nil
          (hrange q (List.mem_cons_of_mem _ (List.mem_of_mem_take hq))) (hfreeO q hq)]
        rfl
      rw [htake] at hall
      exact hall.ge.trans (List.take_sublist _ _).countP_le
    rw [List.countP_cons_of_pos (by rw [hcostsR]; rfl), hcountV]
    omega
  · have hblocksO : o.countP (blocks (free nodes (some x))) ≤ l := by
      have hnone : (o.drop l).countP (blocks (free nodes (some x))) = 0 := by
        refine List.countP_eq_zero.mpr fun q hq => ?_
        rw [blocks_none (hrange q (List.mem_cons_of_mem _ (List.mem_of_mem_drop hq))) fun n hn => ?_]
        · exact Bool.false_ne_true
        · have : n ∈ nodes := (hmem n).mpr (Or.inr (Or.inr ⟨q, hq, hn⟩))
          simp [free, this]
      rw [← List.take_append_drop l o, List.countP_append, hnone, add_zero]
      exact List.countP_le_length.trans (by rw [htake])
    rw [List.countP_cons_of_neg (by rw [hblocksR]; exact Bool.false_ne_true), hcountV]
    omega

end Misled

/-- An inner set that cannot be blocked without the excluded node misleads: for some nodes the
answer is that the quorum set is blocked already, and it is not. -/
theorem exists_misled {extraChecks : Bool} (hrange : InRange extraChecks q)
    (hnodup : q.forAllNodesInternal.Nodup) (h : ∃ p ∈ q.allSets, canBlock excluded p = false) :
    ∃ nodes ⊆ q.forAllNodesInternal, findClosestVBlocking nodes excluded q = [] ∧
      blocks (free nodes excluded) q = false := by
  induction q using SCPQuorumSet.induct with
  | mk t v i ih =>
    by_cases hself : canBlock excluded (.mk t v i) = false
    · refine ⟨[], List.nil_subset _, findClosestVBlocking_eq_nil hrange fun n _ => List.not_mem_nil,
        ?_⟩
      rw [Bool.eq_false_iff] at hself ⊢
      refine fun hfree => hself (blocks_mono (fun n _ hn => ?_) hfree)
      exact decide_eq_true (of_decide_eq_true hn).1
    · obtain ⟨p, hp, hcan⟩ := h
      rw [allSets, allSetsOf_eq] at hp
      rcases List.mem_cons.mp hp with rfl | hp
      · exact absurd hcan hself
      · obtain ⟨r, hr, hp⟩ := List.mem_flatMap.mp hp
        obtain ⟨hrange', hinner⟩ := inRange_mk.mp hrange
        obtain ⟨given, hgiven, hnil, hblocks⟩ := ih r hr (hinner r hr)
          ((List.nodup_flatMap.mp (nodup_mk hnodup).2.1).1 r hr) ⟨p, hp, hcan⟩
        obtain ⟨x, hx, rfl⟩ := mem_of_canBlock_false (hinner r hr) hp hcan
        obtain ⟨pre, post, rfl⟩ := List.append_of_mem hr
        have hperm : (pre ++ r :: post).Perm (r :: (pre ++ post)) := List.perm_middle
        have hlen := hperm.length_eq
        rw [List.length_cons] at hlen
        have hnodup' : (v ++ (r :: (pre ++ post)).flatMap forAllNodesInternal).Nodup := by
          rw [forAllNodesInternal, forAllNodesOf_eq] at hnodup
          exact ((hperm.flatMap_right _).append_left v).nodup_iff.mp hnodup
        obtain ⟨nodes, hnodes, hcost, hless⟩ := misled_of_inner
          (k := v.length + (pre ++ r :: post).length - t.val)
          (fun q hq => hinner q (hperm.mem_iff.mpr hq)) (by omega) hnodup' hx hgiven hnil hblocks
        refine ⟨nodes, ?_, ?_, ?_⟩
        · rw [forAllNodesInternal, forAllNodesOf_eq]
          exact fun n hn => ((hperm.flatMap_right _).append_left v).mem_iff.mpr (hnodes hn)
        · rw [findClosestVBlocking_mk hrange'.2.1]
          refine if_pos ?_
          rw [hperm.countP_eq]
          omega
        · rw [Bool.eq_false_iff, Ne, blocks_mk, hperm.countP_eq]
          omega

end Closest

/-! ## When the answer is right -/

/-- The nodes of `q` outside `S` contain no slice of it. -/
def leavesNoSlice (q : SCPQuorumSet) (S : List NodeID) : Bool :=
  !isQuorumSlice q (q.forAllNodesInternal.filter fun n => !S.contains n)

/-- `findClosestVBlocking` finds a smallest set of the given nodes that is v-blocking together with
the other nodes of the quorum set, if there is one, all without the excluded node. -/
def FindsClosest (isBlocking : SCPQuorumSet → List NodeID → Bool) (q : SCPQuorumSet)
    (excluded : Option NodeID) (nodes : List NodeID) : Prop :=
  let A := q.forAllNodesInternal.filter fun n => decide (excluded ≠ some n ∧ n ∉ nodes)
  let G := nodes.filter fun n => decide (excluded ≠ some n)
  let R := findClosestVBlocking nodes excluded q
  (∃ H ⊆ G, isBlocking q (A ++ H) = true) →
    R.Nodup ∧ R ⊆ G ∧ isBlocking q (A ++ R) = true ∧
      (∀ H ⊆ G, isBlocking q (A ++ H) = true → R.length ≤ H.length) ∧
        (R = [] ↔ isBlocking q A = true)

/-- If the quorum set can be blocked without the excluded node, then so can every set inside. -/
def NoneDepends (isBlocking : SCPQuorumSet → List NodeID → Bool) (q : SCPQuorumSet)
    (excluded : Option NodeID) : Prop :=
  isBlocking q (q.forAllNodesInternal.filter fun n => decide (excluded ≠ some n)) = true →
    ∀ p ∈ q.allSets,
      isBlocking p (p.forAllNodesInternal.filter fun n => decide (excluded ≠ some n)) = true

section Right

variable {q : SCPQuorumSet} {extraChecks : Bool} {nodes : List NodeID} {excluded : Option NodeID}
  {isBlocking : SCPQuorumSet → List NodeID → Bool}

theorem findsClosest_iff (hrange : InRange extraChecks q) (hnodup : q.forAllNodesInternal.Nodup)
    (hblocking : ∀ p ∈ q.allSets, ∀ S, isBlocking p S = blocks (fun n => decide (n ∈ S)) p) :
    (∀ nodes, FindsClosest isBlocking q excluded nodes) ↔ NoneDepends isBlocking q excluded := by
  have hself : q ∈ q.allSets := by
    cases q
    rw [allSets]
    exact List.mem_cons_self
  have hcan : ∀ p ∈ q.allSets, isBlocking p
      (p.forAllNodesInternal.filter fun n => decide (excluded ≠ some n)) = canBlock excluded p := by
    intro p hp
    rw [hblocking p hp, canBlock]
    refine blocks_congr fun n hn => ?_
    simp [hn]
  -- what is missing, together with other nodes
  have hfree : ∀ nodes H, isBlocking q ((q.forAllNodesInternal.filter fun n =>
      decide (excluded ≠ some n ∧ n ∉ nodes)) ++ H) = blocks (freeAnd nodes excluded H) q := by
    intro nodes H
    rw [hblocking q hself]
    refine blocks_congr fun n hn => ?_
    rw [freeAnd, free, Bool.eq_iff_iff, decide_eq_true_iff, List.mem_append, List.mem_filter,
      Bool.or_eq_true_iff, decide_eq_true_iff]
    exact or_congr (and_iff_right hn) (decide_eq_true_iff).symm
  have hfree' : ∀ nodes, isBlocking q (q.forAllNodesInternal.filter fun n =>
      decide (excluded ≠ some n ∧ n ∉ nodes)) = blocks (free nodes excluded) q := by
    intro nodes
    rw [← List.append_nil (List.filter _ _), hfree]
    exact blocks_congr fun n _ => by simp [freeAnd]
  constructor
  · intro hall hq
    rw [hcan q hself] at hq
    by_contra hdepends
    push Not at hdepends
    obtain ⟨p, hp, hne⟩ := hdepends
    rw [hcan p hp, Ne, Bool.not_eq_true] at hne
    obtain ⟨nodes, -, hnil, hblocks⟩ := exists_misled hrange hnodup ⟨p, hp, hne⟩
    have hexists : ∃ H ⊆ nodes.filter fun n => decide (excluded ≠ some n),
        isBlocking q ((q.forAllNodesInternal.filter fun n =>
          decide (excluded ≠ some n ∧ n ∉ nodes)) ++ H) = true := by
      refine ⟨_, List.Subset.refl _, ?_⟩
      rw [hfree]
      refine blocks_mono (fun n _ hn => ?_) hq
      rw [decide_eq_true_iff] at hn
      by_cases hmem : n ∈ nodes
      · simp [freeAnd, hmem, hn]
      · simp [freeAnd, free, hmem, hn]
    have hright := (hall nodes hexists).2.2.2.2.mp hnil
    rw [hfree', hblocks] at hright
    cases hright
  · intro hdepends nodes hexists
    obtain ⟨H, hH, hblocks⟩ := hexists
    have hall : ∀ p ∈ q.allSets, canBlock excluded p = true := by
      intro p hp
      rw [← hcan p hp]
      refine hdepends ?_ p hp
      rw [hcan q hself]
      rw [hfree] at hblocks
      refine blocks_mono (fun n _ hn => ?_) hblocks
      rcases Bool.or_eq_true_iff.mp hn with hn | hn
      · exact decide_eq_true (of_decide_eq_true hn).1
      · exact (List.mem_filter.mp (hH (of_decide_eq_true hn))).2
    have hclosest : IsClosest nodes _ _ _ := isClosest_of_canBlock hrange hnodup hall
    refine ⟨hclosest.nodup, fun n hn => ?_, ?_, fun H hH hblocks => ?_, ?_⟩
    · obtain ⟨hne, hmem⟩ := of_decide_eq_true (hclosest.given n hn).1
      exact List.mem_filter.mpr ⟨hmem, decide_eq_true hne⟩
    · rw [hfree]
      exact hclosest.enough
    · rw [hfree] at hblocks
      refine hclosest.least H (fun n hn => ?_) hblocks
      obtain ⟨hmem, hne⟩ := List.mem_filter.mp (hH hn)
      exact decide_eq_true ⟨of_decide_eq_true hne, hmem⟩
    · rw [hfree']
      exact hclosest.eq_nil_iff

end Right

/-- **When `findClosestVBlocking` is right**: for a sane quorum set and an excluded node, if any, it
finds a closest v-blocking set in every set of nodes if and only if no set inside depends on the
excluded node to be blocked. V-blocking is to leave no slice, which is what `isVBlocking` decides
where its counter fits in an `int`. -/
theorem findClosestVBlocking_iff (q : SCPQuorumSet) (extraChecks : Bool)
    (excluded : Option NodeID) (h : isQuorumSetSane q extraChecks = true) :
    ((∀ nodes, FindsClosest leavesNoSlice q excluded nodes) ↔
      NoneDepends leavesNoSlice q excluded) ∧
    (FitsInt q → ((∀ nodes, FindsClosest isVBlocking q excluded nodes) ↔
      NoneDepends isVBlocking q excluded)) := by
  obtain ⟨hrange, hnodup⟩ := isQuorumSetSane_iff.mp h
  have hslice : ∀ p ∈ q.allSets, ∀ S, leavesNoSlice p S = blocks (fun n => decide (n ∈ S)) p := by
    intro p hp S
    have hrange := hrange.of_mem hp
    rw [leavesNoSlice, isQuorumSlice_outside hrange.positive, blocks, hrange.sat_dual]
    congr 2
    funext n
    rw [List.contains_eq_mem]
  refine ⟨findsClosest_iff hrange hnodup hslice, fun hfits => findsClosest_iff hrange hnodup ?_⟩
  intro p hp S
  rw [isVBlocking_eq_sat (hrange.of_mem hp).positive, blocks, sat_need_congr fun r hr => ?_]
  · congr 1
    funext n
    rw [List.contains_eq_mem]
  · rw [nodes_toTree] at hr
    obtain ⟨s, hs, rfl⟩ := List.mem_map.mp hr
    exact blockNeed_eq ((hrange.of_mem hp) s hs).2.1 (hfits s (allSets_trans hp hs))

/-- Two of three validators and an inner set, and nobody is excluded. -/
theorem findClosestVBlocking_iff_twoOfFour :
    isQuorumSetSane (.mk 2 [0, 1, 2] [.mk 1 [3, 4, 5] []]) false = true ∧
      ∀ nodes, FindsClosest isVBlocking (.mk 2 [0, 1, 2] [.mk 1 [3, 4, 5] []]) none nodes := by
  have hsane : isQuorumSetSane (.mk 2 [0, 1, 2] [.mk 1 [3, 4, 5] []]) false = true := by decide
  have hsets : ∀ p ∈ (SCPQuorumSet.mk 2 [0, 1, 2] [.mk 1 [3, 4, 5] []]).allSets,
      p = .mk 2 [0, 1, 2] [.mk 1 [3, 4, 5] []] ∨ p = .mk 1 [3, 4, 5] [] := by
    intro p hp
    simpa [allSets, allSetsOf] using hp
  refine ⟨hsane, ((findClosestVBlocking_iff _ false none hsane).2 ?_).mpr ?_⟩
  · intro p hp
    rcases hsets p hp with rfl | rfl <;> decide
  · intro _ p hp
    rcases hsets p hp with rfl | rfl <;> decide

/-- The inner set is the excluded node alone. It counts as blocked, and so does the quorum set, but
it takes the validator. -/
theorem findClosestVBlocking_misled :
    isQuorumSetSane (.mk 2 [0] [.mk 1 [1] []]) false = true ∧
      ¬ FindsClosest isVBlocking (.mk 2 [0] [.mk 1 [1] []]) (some 1) [0] := by
  refine ⟨by decide, fun h => ?_⟩
  have hright := (h ⟨[0], by decide, by decide⟩).2.2.2.2.mp (by decide)
  revert hright
  decide

end SmartCore.SCP
