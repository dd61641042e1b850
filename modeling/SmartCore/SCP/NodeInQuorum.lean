import SmartCore.Lib.Worklist
import SmartCore.SCP.QuorumSets
import SmartCore.SCP.Slot
import Mathlib.Data.List.Dedup

/-!
# Which nodes are in the quorum

`LocalNode::isNodeInQuorum` searches for a node through the quorum sets of the statements that are
known, from the local node on. The search takes the nodes of its backlog in any order: it is an
unordered set. The quorum sets of some nodes may not be known; then the answer is "maybe", unless
the node is found.

**Theorem (`isNodeInQuorum_answers`).** In every order the search ends, and the answer is "true"
if the node can be reached, "maybe" if it cannot but some reached node is not fully known, and
"false" otherwise.
-/

namespace SmartCore.SCP

open SCPQuorumSet

inductive TriBool where
  | TB_TRUE
  | TB_FALSE
  | TB_MAYBE
deriving DecidableEq, Repr

namespace LocalNode

/-- `forAllNodes` runs `proc` over each node once. -/
def forAllNodes (qset : SCPQuorumSet) : List NodeID := qset.forAllNodesInternal.dedup

/-- The statements of each node. A statement is only passed to `qfun`. -/
abbrev StatementMap (St : Type) := Std.ExtTreeMap NodeID (List St)

section Search

variable {St : Type} (qfun : St → Option SCPQuorumSet) (map : StatementMap St)

/-- The loop over the statements of a node. -/
def exploreStatements : List St → Search NodeID × TriBool → Search NodeID × TriBool
  | [], x => x
  | st :: sts, (search, res) =>
    match qfun st with
    -- can't find the quorum set
    | none => exploreStatements sts (search, .TB_MAYBE)
    -- see if we need to explore further
    | some qset => exploreStatements sts (search.discoverAll (forAllNodes qset), res)

/-- What is found from the node `c`. -/
def explore (c : NodeID) (x : Search NodeID × TriBool) : Search NodeID × TriBool :=
  match map[c]? with
  -- can't lookup information on this node
  | none => (x.1, .TB_MAYBE)
  | some sts => exploreStatements qfun sts x

/-- The loop. In each round `order` picks the node that `backlog.begin()` is at. `none` if it is
stopped before the end. -/
def searchLoop (node : NodeID) (order : ℕ → ℕ) : ℕ → Search NodeID × TriBool → Option TriBool
  | 0, _ => none
  | rounds + 1, (search, res) =>
    match search.backlog[order rounds % search.backlog.length]? with
    | none => some res
    | some c =>
      if c = node then some .TB_TRUE
      else searchLoop node order rounds (explore qfun map c (search.take c, res))

def isNodeInQuorum (mNodeID node : NodeID) (order : ℕ → ℕ) (rounds : ℕ) : Option TriBool :=
  searchLoop qfun map node order rounds ({ backlog := [mNodeID] }, .TB_FALSE)

end Search

end LocalNode

/-! ## The history of a slot -/

/-- A statement in the history of a slot: a ballot statement or a nomination. -/
inductive HistoryStatement where
  | ballot (st : SCPStatement)
  | nominate (nodeID : NodeID) (quorumSetHash : Hash)

namespace HistoryStatement

def nodeID : HistoryStatement → NodeID
  | ballot st => st.nodeID
  | nominate nodeID _ => nodeID

/-- `getCompanionQuorumSetHashFromStatement` -/
def companionHash : HistoryStatement → Hash
  | ballot st => getCompanionQuorumSetHashFromStatement st
  | nominate _ quorumSetHash => quorumSetHash

/-- The mapping between nodes and their statements. -/
def statementMap : List (HistoryStatement × Bool) → LocalNode.StatementMap HistoryStatement →
    LocalNode.StatementMap HistoryStatement
  | [], m => m
  | e :: history, m => statementMap history (m.insert e.1.nodeID (m[e.1.nodeID]?.getD [] ++ [e.1]))

end HistoryStatement

open HistoryStatement

/-- `Slot::isNodeInQuorum` -/
def slotIsNodeInQuorum (getQSet : Hash → Option SCPQuorumSet)
    (mStatementsHistory : List (HistoryStatement × Bool)) (mNodeID node : NodeID) (order : ℕ → ℕ)
    (rounds : ℕ) : Option TriBool :=
  LocalNode.isNodeInQuorum (fun st => getQSet st.companionHash) (statementMap mStatementsHistory ∅)
    mNodeID node order rounds

/-! ## What is known -/

/-- What is known of the quorum: which nodes are in the quorum sets of a node, and which nodes are
fully known. -/
structure Knowledge where
  next : NodeID → NodeID → Prop
  known : NodeID → Prop

namespace Knowledge

/-- `b` can be reached from `a`. -/
def Reaches (k : Knowledge) (a b : NodeID) : Prop := Relation.ReflTransGen k.next a b

/-- The right answer to the question whether `node` is in the quorum of `start`. -/
structure Answers (k : Knowledge) (start node : NodeID) (answer : TriBool) : Prop where
  isTrue : answer = .TB_TRUE ↔ k.Reaches start node
  isFalse : answer = .TB_FALSE ↔ ¬ k.Reaches start node ∧ ∀ a, k.Reaches start a → k.known a
  isMaybe : answer = .TB_MAYBE ↔ ¬ k.Reaches start node ∧ ∃ a, k.Reaches start a ∧ ¬ k.known a

end Knowledge

section Map

variable {St : Type} (qfun : St → Option SCPQuorumSet) (map : LocalNode.StatementMap St)

/-- A node is known if it has statements, and the quorum set of each is known. -/
def LocalNode.knowledge : Knowledge where
  next a b := ∃ sts st qset, map[a]? = some sts ∧ st ∈ sts ∧ qfun st = some qset ∧
    b ∈ qset.forAllNodesInternal
  known a := ∃ sts, map[a]? = some sts ∧ ∀ st ∈ sts, (qfun st).isSome

end Map

/-- The same, from the history. -/
def slotKnowledge (getQSet : Hash → Option SCPQuorumSet)
    (mStatementsHistory : List (HistoryStatement × Bool)) : Knowledge where
  next a b := ∃ e ∈ mStatementsHistory, e.1.nodeID = a ∧
    ∃ qset, getQSet e.1.companionHash = some qset ∧ b ∈ qset.forAllNodesInternal
  known a := (∃ e ∈ mStatementsHistory, e.1.nodeID = a) ∧
    ∀ e ∈ mStatementsHistory, e.1.nodeID = a → (getQSet e.1.companionHash).isSome

/-! ## The search -/

namespace LocalNode

section Explore

variable {St : Type} {qfun : St → Option SCPQuorumSet} {map : StatementMap St}

/-- The nodes in the quorum sets of a node. -/
def nextNodes (qfun : St → Option SCPQuorumSet) (map : StatementMap St) (c : NodeID) :
    List NodeID :=
  (map[c]?.getD []).flatMap fun st => (qfun st).elim [] forAllNodes

theorem mem_nextNodes {a b : NodeID} : b ∈ nextNodes qfun map a ↔ (knowledge qfun map).next a b := by
  unfold nextNodes
  rw [List.mem_flatMap]
  constructor
  · rintro ⟨st, hst, hb⟩
    cases hsts : map[a]? with
    | none =>
      rw [hsts] at hst
      cases hst
    | some sts =>
      rw [hsts] at hst
      cases hq : qfun st with
      | none =>
        rw [hq] at hb
        cases hb
      | some qset =>
        rw [hq] at hb
        exact ⟨sts, st, qset, hsts, hst, hq, List.mem_dedup.mp hb⟩
  · rintro ⟨sts, st, qset, hsts, hst, hq, hb⟩
    refine ⟨st, by rwa [hsts], ?_⟩
    rw [hq]
    exact List.mem_dedup.mpr hb

theorem reaches_iff {a b : NodeID} :
    Search.Reaches (nextNodes qfun map) a b ↔ (knowledge qfun map).Reaches a b := by
  have heq : (fun a b => b ∈ nextNodes qfun map a) = (knowledge qfun map).next := by
    funext a b
    exact propext mem_nextNodes
  unfold Search.Reaches Knowledge.Reaches
  rw [heq]

/-- Some quorum set is not known. -/
def hasUnknown (qfun : St → Option SCPQuorumSet) (sts : List St) : Bool :=
  sts.any fun st => (qfun st).isNone

theorem hasUnknown_cons (st : St) (sts : List St) :
    hasUnknown qfun (st :: sts) = ((qfun st).isNone || hasUnknown qfun sts) := rfl

theorem exploreStatements_eq (sts : List St) (search : Search NodeID) (res : TriBool) :
    exploreStatements qfun sts (search, res) =
      (search.discoverAll (sts.flatMap fun st => (qfun st).elim [] forAllNodes),
        if hasUnknown qfun sts then .TB_MAYBE else res) := by
  induction sts generalizing search res with
  | nil => rfl
  | cons st sts ih =>
    rw [exploreStatements, List.flatMap_cons, Search.discoverAll_append, hasUnknown_cons]
    cases qfun st with
    | none => exact (ih search .TB_MAYBE).trans (congrArg (Prod.mk _) (ite_self _))
    | some qset => exact ih (search.discoverAll (forAllNodes qset)) res

/-- A round of the search, and whether the node is known. -/
theorem explore_eq (c : NodeID) (search : Search NodeID) (res : TriBool) :
    explore qfun map c (search, res) =
      (search.discoverAll (nextNodes qfun map c),
        if (map[c]?.elim true (hasUnknown qfun)) then .TB_MAYBE else res) := by
  unfold explore nextNodes
  cases map[c]? with
  | none => rfl
  | some sts => exact exploreStatements_eq sts search res

theorem known_iff {c : NodeID} :
    (map[c]?.elim true (hasUnknown qfun)) = false ↔ (knowledge qfun map).known c := by
  cases hsts : map[c]? with
  | none =>
    simp only [Option.elim_none, Bool.true_eq_false, false_iff]
    rintro ⟨sts, hsome, -⟩
    rw [hsts] at hsome
    cases hsome
  | some sts =>
    simp only [Option.elim_some, hasUnknown, List.any_eq_false]
    constructor
    · intro h
      refine ⟨sts, hsts, fun st hst => ?_⟩
      exact Option.isSome_iff_ne_none.mpr (by simpa using h st hst)
    · rintro ⟨sts', hsome, h⟩ st hst
      obtain rfl : sts = sts' := Option.some.inj (hsts.symm.trans hsome)
      simpa using Option.isSome_iff_ne_none.mp (h st hst)

/-- All nodes that can be reached. -/
def allNodes (qfun : St → Option SCPQuorumSet) (map : StatementMap St) (mNodeID : NodeID) :
    List NodeID :=
  mNodeID :: map.keys.flatMap (nextNodes qfun map)

theorem mem_allNodes {mNodeID a : NodeID} (h : Search.Reaches (nextNodes qfun map) mNodeID a) :
    a ∈ allNodes qfun map mNodeID := by
  cases h with
  | refl => exact List.mem_cons_self
  | @tail b _ _ ha =>
    refine List.mem_cons_of_mem _ (List.mem_flatMap.mpr ⟨b, ?_, ha⟩)
    obtain ⟨sts, -, -, hsts, -⟩ := mem_nextNodes.mp ha
    rw [Std.ExtTreeMap.mem_keys]
    exact Std.ExtTreeMap.isSome_getElem?_iff_mem.mp (by rw [hsts]; rfl)

/-- What holds before each round: the node has not been visited, and the answer so far is right for
the nodes that have been. -/
structure SearchOk (qfun : St → Option SCPQuorumSet) (map : StatementMap St)
    (mNodeID node : NodeID) (search : Search NodeID) (res : TriBool) : Prop where
  inv : search.Inv (nextNodes qfun map) mNodeID
  notMem : node ∉ search.visited
  ne_true : res ≠ .TB_TRUE
  eq_false : res = .TB_FALSE ↔ ∀ a ∈ search.visited, (knowledge qfun map).known a

variable {mNodeID node : NodeID} {search : Search NodeID} {res : TriBool}

theorem SearchOk.round (h : SearchOk qfun map mNodeID node search res) {c : NodeID}
    (hc : c ∈ search.backlog) (hne : c ≠ node) :
    SearchOk qfun map mNodeID node (explore qfun map c (search.take c, res)).1
      (explore qfun map c (search.take c, res)).2 := by
  have hvisited : (search.visit (nextNodes qfun map) c).visited = c :: search.visited :=
    Search.visited_discoverAll
  rw [explore_eq]
  show SearchOk qfun map mNodeID node (search.visit (nextNodes qfun map) c) _
  refine ⟨h.inv.visit hc, ?_, ?_, ?_⟩
  · rw [hvisited, List.mem_cons]
    rintro (heq | hmem)
    · exact hne heq.symm
    · exact h.notMem hmem
  · split_ifs
    · nofun
    · exact h.ne_true
  · rw [hvisited, List.forall_mem_cons, ← h.eq_false, ← known_iff]
    cases map[c]?.elim true (hasUnknown qfun) with
    | true => simp
    | false => simp

/-- When the backlog is empty, the answer is right. -/
theorem SearchOk.answers (h : SearchOk qfun map mNodeID node search res)
    (hend : search.backlog = []) : (knowledge qfun map).Answers mNodeID node res := by
  have hvisited (a : NodeID) : a ∈ search.visited ↔ (knowledge qfun map).Reaches mNodeID a :=
    (h.inv.mem_visited_iff hend).trans reaches_iff
  have hnot : ¬ (knowledge qfun map).Reaches mNodeID node := fun hreach =>
    h.notMem ((hvisited node).mpr hreach)
  have hfalse : res = .TB_FALSE ↔ ∀ a, (knowledge qfun map).Reaches mNodeID a →
      (knowledge qfun map).known a := by
    rw [h.eq_false]
    exact forall_congr' fun a => by rw [hvisited]
  refine ⟨iff_of_false h.ne_true hnot, ?_, ?_⟩
  · rw [hfalse]
    exact ⟨fun h => ⟨hnot, h⟩, And.right⟩
  · have hmaybe : res = .TB_MAYBE ↔ ¬ res = .TB_FALSE := by
      have hne := h.ne_true
      cases res with
      | TB_TRUE => exact absurd rfl hne
      | TB_FALSE => simp
      | TB_MAYBE => simp
    rw [hmaybe, hfalse]
    push Not
    exact ⟨fun h => ⟨hnot, h⟩, And.right⟩

/-- **The loop**, in any order: it ends after as many rounds as there are nodes. -/
theorem searchLoop_answers (h : SearchOk qfun map mNodeID node search res) (order : ℕ → ℕ)
    {rounds : ℕ}
    (hrounds : (allNodes qfun map mNodeID).length < rounds + search.visited.length) :
    ∃ answer, searchLoop qfun map node order rounds (search, res) = some answer ∧
      (knowledge qfun map).Answers mNodeID node answer := by
  induction rounds generalizing search res with
  | zero =>
    exfalso
    have hlen : search.visited.length ≤ (allNodes qfun map mNodeID).length :=
      (List.subperm_of_subset h.inv.nodup_visited fun a ha =>
        mem_allNodes (h.inv.reaches a (Or.inr ha))).length_le
    omega
  | succ rounds ih =>
    rw [searchLoop]
    cases hpick : search.backlog[order rounds % search.backlog.length]? with
    | none =>
      have hend : search.backlog = [] := by
        by_contra hne
        have hpos := List.length_pos_iff.mpr hne
        rw [List.getElem?_eq_none_iff] at hpick
        exact absurd (Nat.mod_lt (order rounds) hpos) (not_lt.mpr hpick)
      exact ⟨res, rfl, h.answers hend⟩
    | some c =>
      have hc : c ∈ search.backlog := List.mem_of_getElem? hpick
      show ∃ answer, (if c = node then _ else _) = some answer ∧ _
      by_cases heq : c = node
      · rw [if_pos heq]
        have hreach : (knowledge qfun map).Reaches mNodeID node :=
          reaches_iff.mp (heq ▸ h.inv.reaches c (Or.inl hc))
        exact ⟨_, rfl, iff_of_true rfl hreach, iff_of_false nofun (fun hn => hn.1 hreach),
          iff_of_false nofun fun hn => hn.1 hreach⟩
      · rw [if_neg heq]
        have hround := h.round hc heq
        have hvisited : (explore qfun map c (search.take c, res)).1.visited =
            c :: search.visited := by
          rw [explore_eq]
          exact Search.visited_discoverAll
        have hlen := congrArg List.length hvisited
        rw [List.length_cons] at hlen
        have hlt : (allNodes qfun map mNodeID).length <
            rounds + (explore qfun map c (search.take c, res)).1.visited.length := by omega
        exact ih hround hlt

end Explore

/-- The answer does not depend on the order. -/
theorem answers_isNodeInQuorum {St : Type} (qfun : St → Option SCPQuorumSet)
    (map : StatementMap St) (mNodeID node : NodeID) (order : ℕ → ℕ) {rounds : ℕ}
    (hrounds : (allNodes qfun map mNodeID).length < rounds) :
    ∃ answer, isNodeInQuorum qfun map mNodeID node order rounds = some answer ∧
      (knowledge qfun map).Answers mNodeID node answer := by
  have hstart : SearchOk qfun map mNodeID node { backlog := [mNodeID] } .TB_FALSE :=
    ⟨Search.inv_start, List.not_mem_nil, nofun, by simp⟩
  exact searchLoop_answers hstart order hrounds

end LocalNode

/-! ## From the history -/

section History

variable {getQSet : Hash → Option SCPQuorumSet} {history : List (HistoryStatement × Bool)}

/-- The statements of a node in the history. -/
def statementsOf (history : List (HistoryStatement × Bool)) (a : NodeID) : List HistoryStatement :=
  (history.map Prod.fst).filter fun st => st.nodeID = a

theorem getElem?_statementMap (m : LocalNode.StatementMap HistoryStatement) (a : NodeID) :
    (statementMap history m)[a]? =
      if statementsOf history a = [] then m[a]?
      else some (m[a]?.getD [] ++ statementsOf history a) := by
  induction history generalizing m with
  | nil => rfl
  | cons e history ih =>
    rw [statementMap, ih, Std.ExtTreeMap.getElem?_insert]
    by_cases heq : e.1.nodeID = a
    · have hcons : statementsOf (e :: history) a = e.1 :: statementsOf history a := by
        simp [statementsOf, heq]
      have hcmp : compare e.1.nodeID a = .eq := by simp [heq]
      rw [hcons, if_neg (List.cons_ne_nil _ _), if_pos hcmp, heq]
      by_cases hnil : statementsOf history a = []
      · rw [if_pos hnil, hnil]
      · rw [if_neg hnil, Option.getD_some, List.append_assoc, List.singleton_append]
    · have hcons : statementsOf (e :: history) a = statementsOf history a := by
        simp [statementsOf, heq]
      have hcmp : ¬ compare e.1.nodeID a = .eq := by simpa using heq
      rw [hcons, if_neg hcmp]

theorem mem_statementsOf {a : NodeID} {st : HistoryStatement} :
    st ∈ statementsOf history a ↔ ∃ e ∈ history, e.1 = st ∧ e.1.nodeID = a := by
  simp only [statementsOf, List.mem_filter, List.mem_map, decide_eq_true_eq]
  constructor
  · rintro ⟨⟨e, he, rfl⟩, ha⟩
    exact ⟨e, he, rfl, ha⟩
  · rintro ⟨e, he, rfl, ha⟩
    exact ⟨⟨e, he, rfl⟩, ha⟩

theorem statementMap_eq_some {a : NodeID} {sts : List HistoryStatement} :
    (statementMap history ∅)[a]? = some sts ↔
      statementsOf history a ≠ [] ∧ sts = statementsOf history a := by
  rw [getElem?_statementMap]
  split_ifs with h
  · simp [h]
  · simp [h, eq_comm]

theorem knowledge_statementMap :
    LocalNode.knowledge (fun st => getQSet st.companionHash) (statementMap history ∅) =
      slotKnowledge getQSet history := by
  have hnext (a b : NodeID) :
      (LocalNode.knowledge (fun st => getQSet st.companionHash) (statementMap history ∅)).next a b ↔
        (slotKnowledge getQSet history).next a b := by
    constructor
    · rintro ⟨sts, st, qset, hsts, hst, hq, hb⟩
      obtain ⟨-, rfl⟩ := statementMap_eq_some.mp hsts
      obtain ⟨e, he, rfl, ha⟩ := mem_statementsOf.mp hst
      exact ⟨e, he, ha, qset, hq, hb⟩
    · rintro ⟨e, he, ha, qset, hq, hb⟩
      have hst : e.1 ∈ statementsOf history a := mem_statementsOf.mpr ⟨e, he, rfl, ha⟩
      exact ⟨_, e.1, qset, statementMap_eq_some.mpr ⟨List.ne_nil_of_mem hst, rfl⟩, hst, hq, hb⟩
  have hknown (a : NodeID) :
      (LocalNode.knowledge (fun st => getQSet st.companionHash) (statementMap history ∅)).known a ↔
        (slotKnowledge getQSet history).known a := by
    constructor
    · rintro ⟨sts, hsts, hall⟩
      obtain ⟨hne, rfl⟩ := statementMap_eq_some.mp hsts
      obtain ⟨st, hst⟩ := List.exists_mem_of_ne_nil _ hne
      obtain ⟨e, he, -, ha⟩ := mem_statementsOf.mp hst
      exact ⟨⟨e, he, ha⟩, fun e' he' ha' => hall e'.1 (mem_statementsOf.mpr ⟨e', he', rfl, ha'⟩)⟩
    · rintro ⟨⟨e, he, ha⟩, hall⟩
      have hst : e.1 ∈ statementsOf history a := mem_statementsOf.mpr ⟨e, he, rfl, ha⟩
      refine ⟨_, statementMap_eq_some.mpr ⟨List.ne_nil_of_mem hst, rfl⟩, fun st hst => ?_⟩
      obtain ⟨e', he', rfl, ha'⟩ := mem_statementsOf.mp hst
      exact hall e' he' ha'
  unfold LocalNode.knowledge slotKnowledge at hnext hknown ⊢
  congr 1
  · funext a b
    exact propext (hnext a b)
  · funext a
    exact propext (hknown a)

end History

/-- **Transitive quorum membership.** With time for all nodes the search ends, whatever the order,
and the answer is right. So it is for a slot, with the statements of its history. -/
theorem isNodeInQuorum_answers :
    (∀ (St : Type) (qfun : St → Option SCPQuorumSet) (map : LocalNode.StatementMap St)
        (mNodeID : NodeID),
      ∃ enough, ∀ (node : NodeID) (order : ℕ → ℕ) (rounds : ℕ), enough ≤ rounds →
        ∃ answer, LocalNode.isNodeInQuorum qfun map mNodeID node order rounds = some answer ∧
          (LocalNode.knowledge qfun map).Answers mNodeID node answer) ∧
      ∀ (getQSet : Hash → Option SCPQuorumSet) (history : List (HistoryStatement × Bool))
          (mNodeID : NodeID),
        ∃ enough, ∀ (node : NodeID) (order : ℕ → ℕ) (rounds : ℕ), enough ≤ rounds →
          ∃ answer, slotIsNodeInQuorum getQSet history mNodeID node order rounds = some answer ∧
            (slotKnowledge getQSet history).Answers mNodeID node answer := by
  refine ⟨fun St qfun map mNodeID => ?_, fun getQSet history mNodeID => ?_⟩
  · refine ⟨(LocalNode.allNodes qfun map mNodeID).length + 1, fun node order rounds h => ?_⟩
    exact LocalNode.answers_isNodeInQuorum qfun map mNodeID node order h
  · refine ⟨(LocalNode.allNodes (fun st => getQSet st.companionHash) (statementMap history ∅)
      mNodeID).length + 1, fun node order rounds h => ?_⟩
    rw [← knowledge_statementMap]
    exact LocalNode.answers_isNodeInQuorum _ _ mNodeID node order h

end SmartCore.SCP
