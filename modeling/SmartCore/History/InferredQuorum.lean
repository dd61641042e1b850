import SmartCore.SCP.NodeInQuorum
import SmartCore.SCP.QuorumSets
import SmartCore.Util.Choices

/-!
# Quorum intersection

`InferredQuorum` collects quorum sets from the history of SCP messages.
`checkQuorumIntersection` numbers the nodes, and looks at all sets of nodes that have a quorum set:
a set is a quorum if every member has a slice in it. Any two quorums should share a node.

The slices are shown by an enumerator that skips some of them (`shownSlices`), where a choice of
entries has two inner sets or more behind the first entry. So the answer is wrong if two quorums are
disjoint, but not two whose members have slices that are shown.

Main result: `checkQuorumIntersection_exact_iff`.
-/

namespace SmartCore.History

open SCP Util

/-! ## What is noted -/

/-- The multimap `mQsetHashes` is the list of its entries. -/
structure InferredQuorum where
  mQsets : Std.ExtTreeMap Hash SCPQuorumSet := ∅
  mQsetHashes : List (NodeID × Hash) := []
  mPubKeys : Std.ExtTreeMap NodeID ℕ := ∅

/-- The quorum sets and the statements of an entry of the history. -/
structure SCPHistoryEntry where
  quorumSets : List SCPQuorumSet
  messages : List HistoryStatement

namespace InferredQuorum

def notePubKey (iq : InferredQuorum) (pk : NodeID) : InferredQuorum :=
  { iq with mPubKeys := iq.mPubKeys.insert pk (iq.mPubKeys.getD pk 0 + 1) }

def noteQsetHash (iq : InferredQuorum) (pk : NodeID) (qsetHash : Hash) : InferredQuorum :=
  -- already noted
  if (pk, qsetHash) ∈ iq.mQsetHashes then iq
  else { iq with mQsetHashes := iq.mQsetHashes ++ [(pk, qsetHash)] }

mutual

/-- `hash` is the hash of the XDR of a quorum set. -/
def noteQset (hash : SCPQuorumSet → Hash) (iq : InferredQuorum) : SCPQuorumSet → InferredQuorum
  | .mk threshold validators innerSets =>
    let qset := SCPQuorumSet.mk threshold validators innerSets
    let iq := if iq.mQsets.contains (hash qset) then iq
      else { iq with mQsets := iq.mQsets.insert (hash qset) qset }
    noteQsets hash (validators.foldl notePubKey iq) innerSets

def noteQsets (hash : SCPQuorumSet → Hash) (iq : InferredQuorum) :
    List SCPQuorumSet → InferredQuorum
  | [] => iq
  | q :: qs => noteQsets hash (noteQset hash iq q) qs

end

def noteStatement (iq : InferredQuorum) (st : HistoryStatement) : InferredQuorum :=
  (iq.notePubKey st.nodeID).noteQsetHash st.nodeID st.companionHash

def noteSCPHistory (hash : SCPQuorumSet → Hash) (iq : InferredQuorum) (hist : SCPHistoryEntry) :
    InferredQuorum :=
  hist.messages.foldl noteStatement (iq.noteQsets hash hist.quorumSets)

/-- Everything that is noted in a history. -/
def ofHistory (hash : SCPQuorumSet → Hash) (hists : List SCPHistoryEntry) : InferredQuorum :=
  hists.foldl (noteSCPHistory hash) {}

/-! ## The check -/

section Check

variable (iq : InferredQuorum) (revNodeNumbers : List NodeID)

/-- `nodeNumbers.find`. The nodes are numbered in the order in which a hash map has them. -/
def nodeNumber (pk : NodeID) : Option ℕ :=
  if pk ∈ revNodeNumbers then some (revNodeNumbers.idxOf pk) else none

mutual

/-- `none` if an assertion fails. -/
def makeQsetEnumerator : SCPQuorumSet → Option BitsetEnumerator
  | .mk threshold validators innerSets => do
    let constants ← validators.mapM fun v => (nodeNumber revNodeNumbers v).bind bitNumber
    let innerEnums := constants ++ (← makeQsetEnumerators innerSets)
    let index ← PermutationEnumerator threshold.val innerEnums.length
    return SelectionEnumerator index innerEnums

def makeQsetEnumerators : List SCPQuorumSet → Option (List BitsetEnumerator)
  | [] => some []
  | q :: qs => do
    let E ← makeQsetEnumerator q
    let Es ← makeQsetEnumerators qs
    return E :: Es

end

/-- The quorum set of a node. `find` in the multimap gives one of its entries. -/
def qsetOf (pk : NodeID) : Option SCPQuorumSet := do
  let qsh ← iq.mQsetHashes.lookup pk
  iq.mQsets[qsh]?

def makeSliceEnumerator (pk : NodeID) : Option BitsetEnumerator := do
  let self ← (nodeNumber revNodeNumbers pk).bind bitNumber
  let qset ← (iq.qsetOf pk).bind (makeQsetEnumerator revNodeNumbers)
  return CartesianProductEnumerator [self, qset]

/-- Whether a loop of at most `fuel` rounds finds a slice in `q`. -/
def containsSlice (q : Bits) (e : BitsetEnumerator) : ℕ → e.State → Option Bool
  | 0, s => if e.bool s then none else some false
  | fuel + 1, s =>
    if e.bool s then
      if q ||| e.deref s = q then some true else containsSlice q e fuel (e.next s)
    else some false

/-- Whether all of the members with the numbers `is` have a slice in `q`. -/
def allContained (fuel : ℕ) (q : Bits) : List ℕ → Option Bool
  | [] => some true
  | i :: is =>
    if q.getLsbD i then do
      let found ← ((revNodeNumbers[i]?).bind (makeSliceEnumerator iq revNodeNumbers)).bind fun e =>
        containsSlice q e fuel e.start
      if found then allContained fuel q is else return false
    else allContained fuel q is

def isQuorum (fuel : ℕ) (q : Bits) : Option Bool :=
  allContained iq revNodeNumbers fuel q (List.range 64)

/-- `quorumCandidateEnumerator` -/
def candidateEnumerator (nodesWithQsets : List ℕ) : Option BitsetEnumerator := do
  let nodeEnumerators ← nodesWithQsets.mapM bitNumber
  let index ← PowersetEnumerator nodeEnumerators.length
  return SelectionEnumerator index nodeEnumerators

/-- The loop that inserts into `allQuorums`. -/
def findQuorums (fuel : ℕ) : List Bits → Option (List Bits)
  | [] => some []
  | bv :: candidates => do
    let found ← isQuorum iq revNodeNumbers fuel bv
    let allQuorums ← findQuorums fuel candidates
    return if found then bv :: allQuorums else allQuorums

/-- `nodesWithQsets` are the numbers of the nodes that have a quorum set, in the order of a hash
set. No loop makes more than `fuel` rounds. -/
def checkQuorumIntersection (nodesWithQsets : List ℕ) (fuel : ℕ) : Option Bool := do
  guard (∀ n ∈ iq.mQsetHashes, iq.mQsets.contains n.2 ∧ n.1 ∈ revNodeNumbers)
  let candidates ← (candidateEnumerator nodesWithQsets).bind fun e => e.visits fuel e.start
  let allQuorums ← findQuorums iq revNodeNumbers fuel candidates
  return allQuorums.all fun q => allQuorums.all fun v => q = v || q &&& v != 0#64

end Check

open SCPQuorumSet

/-! ## Slices that are shown -/

mutual

/-- What the enumerator of a quorum set shows, and what it shows at its end. -/
def shownPart : SCPQuorumSet → Util.Part (List NodeID)
  | .mk threshold validators innerSets =>
    let parts := validators.map (fun n => ⟨[[n]], [n]⟩) ++ shownParts innerSets
    let index := (combinations parts.length threshold.val).map (BitVec.ofNat 64)
    { values := index.flatMap fun b => turn (· ++ ·) [] (actives (select b parts.length) parts)
      final := finals (· ++ ·) [] (actives (select (index.getLastD 0#64) parts.length) parts) }

def shownParts : List SCPQuorumSet → List (Util.Part (List NodeID))
  | [] => []
  | q :: qs => shownPart q :: shownParts qs

end

/-- The slices that are shown. -/
def shownSlices (q : SCPQuorumSet) : List (List NodeID) := (shownPart q).values

theorem shownParts_eq (qs : List SCPQuorumSet) : shownParts qs = qs.map shownPart := by
  induction qs with
  | nil => rfl
  | cons q qs ih => rw [shownParts, ih, List.map_cons]

/-- The validators and the inner sets. -/
def entries : SCPQuorumSet → List (NodeID ⊕ SCPQuorumSet)
  | .mk _ validators innerSets => validators.map .inl ++ innerSets.map .inr

/-- What an entry shows. -/
def entryPart : NodeID ⊕ SCPQuorumSet → Util.Part (List NodeID)
  | .inl n => ⟨[[n]], [n]⟩
  | .inr q => shownPart q

theorem length_entries (q : SCPQuorumSet) : (entries q).length = q.totEntries := by
  cases q
  simp [entries, totEntries, SCPQuorumSet.validators, SCPQuorumSet.innerSets]

/-- The choices of entries. -/
def choices (q : SCPQuorumSet) : List Bits :=
  (combinations q.totEntries q.threshold.val).map (BitVec.ofNat 64)

theorem shownPart_eq (q : SCPQuorumSet) : shownPart q =
    { values := (choices q).flatMap fun b =>
        turn (· ++ ·) [] (actives (select b q.totEntries) ((entries q).map entryPart))
      final := finals (· ++ ·) [] (actives (select ((choices q).getLastD 0#64) q.totEntries)
        ((entries q).map entryPart)) } := by
  cases q with
  | mk t v i =>
    have hparts : v.map (fun n => (⟨[[n]], [n]⟩ : Util.Part (List NodeID))) ++ shownParts i =
        (entries (.mk t v i)).map entryPart := by
      rw [shownParts_eq, entries, List.map_append, List.map_map, List.map_map]
      rfl
    rw [shownPart, hparts, List.length_map, length_entries]
    rfl

/-- The bits of nodes. -/
def bitsOf (revNodeNumbers : List NodeID) (nodes : List NodeID) : Bits :=
  nodes.foldr (fun n x => (1#64 <<< revNodeNumbers.idxOf n) ||| x) 0#64

theorem bitsOf_append (rev A B : List NodeID) :
    bitsOf rev (A ++ B) = bitsOf rev A ||| bitsOf rev B := by
  induction A with
  | nil => simp [bitsOf]
  | cons n A ih =>
    have hcons : bitsOf rev (n :: (A ++ B)) = (1#64 <<< rev.idxOf n) ||| bitsOf rev (A ++ B) := rfl
    rw [List.cons_append, hcons, ih, ← BitVec.or_assoc]
    rfl

/-- The bits that an entry shows. -/
abbrev bitsPart (rev : List NodeID) : Util.Part (List NodeID) → BitsPart :=
  Util.Part.image fun nodes => some (bitsOf rev nodes)

theorem some_bitsOf_nil (rev : List NodeID) : some (bitsOf rev []) = some 0#64 := rfl

theorem unite_bitsOf (rev A B : List NodeID) :
    some (bitsOf rev (A ++ B)) = unite (some (bitsOf rev A)) (some (bitsOf rev B)) := by
  rw [bitsOf_append]
  rfl

/-- No assertion fails: the nodes are numbered, and no choice is one of 64 bits. -/
structure Buildable (rev : List NodeID) (q : SCPQuorumSet) : Prop where
  numbered : ∀ n ∈ q.forAllNodesInternal, n ∈ rev ∧ rev.idxOf n < 64
  small : ∀ p ∈ q.allSets, p.totEntries < 64

variable {rev : List NodeID} {q : SCPQuorumSet}

theorem Buildable.inner {t : Uint32} {v : List NodeID} {i : List SCPQuorumSet}
    (h : Buildable rev (.mk t v i)) (hq : q ∈ i) : Buildable rev q := by
  refine ⟨fun n hn => h.numbered n ?_, fun p hp => h.small p (allSets_subset hq hp)⟩
  rw [forAllNodesInternal, forAllNodesOf_eq]
  exact List.mem_append_right _ (List.mem_flatMap.mpr ⟨q, hq, hn⟩)

theorem makeQsetEnumerators_eq (rev : List NodeID) (qs : List SCPQuorumSet) :
    makeQsetEnumerators rev qs = qs.mapM (makeQsetEnumerator rev) := by
  induction qs with
  | nil => rfl
  | cons q qs ih =>
    rw [makeQsetEnumerators, ih, List.mapM_cons]

theorem nodeNumber_eq {n : NodeID} (h : n ∈ rev) : nodeNumber rev n = some (rev.idxOf n) :=
  if_pos h

theorem mem_entries {t : Uint32} {v : List NodeID} {i : List SCPQuorumSet}
    {e : NodeID ⊕ SCPQuorumSet} : e ∈ entries (.mk t v i) ↔
      (∃ n ∈ v, e = .inl n) ∨ ∃ q ∈ i, e = .inr q := by
  simp [entries, eq_comm]

theorem choices_ne_nil (h : q.threshold.val ≤ q.totEntries) : choices q ≠ [] := by
  intro hnil
  have hhead := head?_combinations h
  rw [choices, List.map_eq_nil_iff] at hnil
  rw [hnil] at hhead
  cases hhead

theorem shownPart_ne_nil (h : InRange false q) : (shownPart q).values ≠ [] := by
  induction q using SCPQuorumSet.induct with
  | mk t v i ih =>
    obtain ⟨⟨-, hle, -⟩, hinner⟩ := inRange_mk.mp h
    have hentries : ∀ P ∈ (entries (.mk t v i)).map entryPart, P.values ≠ [] := by
      intro P hP
      obtain ⟨e, he, rfl⟩ := List.mem_map.mp hP
      rcases mem_entries.mp he with ⟨n, -, rfl⟩ | ⟨q, hq, rfl⟩
      · exact List.cons_ne_nil _ _
      · exact ih q hq (hinner q hq)
    obtain ⟨b, bs, hb⟩ := List.exists_cons_of_ne_nil
      (choices_ne_nil (q := .mk t v i) hle)
    rw [shownPart_eq, hb, List.flatMap_cons]
    exact List.append_ne_nil_of_left_ne_nil (turn_ne_nil fun P hP => hentries P (mem_actives hP)) _

/-! ## What the enumerators list -/

/-- The enumerator of an entry. -/
def entryEnumerator (rev : List NodeID) : NodeID ⊕ SCPQuorumSet → Option BitsetEnumerator
  | .inl n => (nodeNumber rev n).bind bitNumber
  | .inr q => makeQsetEnumerator rev q

theorem makeQsetEnumerator_eq (rev : List NodeID) (q : SCPQuorumSet) :
    makeQsetEnumerator rev q = ((entries q).mapM (entryEnumerator rev)).bind fun innerEnums =>
      (PermutationEnumerator q.threshold.val innerEnums.length).map fun index =>
        SelectionEnumerator index innerEnums := by
  cases q with
  | mk t v i =>
    rw [makeQsetEnumerator, makeQsetEnumerators_eq, entries, List.mapM_append]
    simp only [List.mapM_map, Option.bind_eq_bind, Option.bind_assoc, Option.pure_def,
      Option.bind_some, Option.map_eq_bind]
    rfl

/-- The enumerator lists what the part says. -/
def ListsPart (rev : List NodeID) (E : BitsetEnumerator) (P : Util.Part (List NodeID)) : Prop :=
  E.Lists (bitsPart rev P).values (bitsPart rev P).final E.start (bitsPart rev P).values

theorem bitsOf_singleton (rev : List NodeID) (n : NodeID) :
    bitsOf rev [n] = 1#64 <<< rev.idxOf n := by
  simp [bitsOf]

theorem lists_node {n : NodeID} (hmem : n ∈ rev) (hlt : rev.idxOf n < 64) :
    ∃ E, entryEnumerator rev (.inl n) = some E ∧ ListsPart rev E (entryPart (.inl n)) := by
  refine ⟨ConstantEnumerator (bitsOf rev [n]), ?_, lists_constant _⟩
  rw [entryEnumerator, nodeNumber_eq hmem, Option.bind_some, bitNumber, if_pos hlt, bitsOf_singleton]

theorem exists_listsParts {es : List (NodeID ⊕ SCPQuorumSet)}
    (h : ∀ e ∈ es, ∃ E, entryEnumerator rev e = some E ∧ ListsPart rev E (entryPart e)) :
    ∃ Es, es.mapM (entryEnumerator rev) = some Es ∧
      List.Forall₂ (ListsPart rev) Es (es.map entryPart) := by
  induction es with
  | nil => exact ⟨[], rfl, .nil⟩
  | cons e es ih =>
    obtain ⟨E, hE, hpart⟩ := h e List.mem_cons_self
    obtain ⟨Es, hEs, hparts⟩ := ih fun e' he' => h e' (List.mem_cons_of_mem _ he')
    exact ⟨E :: Es, by simp [List.mapM_cons, hE, hEs], .cons hpart hparts⟩

/-- What the selection of a quorum set lists, in terms of nodes. -/
theorem selected_entries (rev : List NodeID) (q : SCPQuorumSet) :
    selected (choices q) (((entries q).map entryPart).map (bitsPart rev)) =
      (bitsPart rev (shownPart q)).values := by
  rw [selected, shownPart_eq, List.length_map, List.length_map, length_entries]
  refine Eq.trans ?_ List.map_flatMap.symm
  refine List.flatMap_congr fun b _ => ?_
  rw [map_actives]
  exact turn_image (f := fun nodes => some (bitsOf rev nodes)) (unite_bitsOf rev) (some_bitsOf_nil rev) _

theorem lastFinals_entries (rev : List NodeID) (q : SCPQuorumSet) :
    lastFinals (choices q) (((entries q).map entryPart).map (bitsPart rev)) =
      (bitsPart rev (shownPart q)).final := by
  rw [lastFinals, shownPart_eq, List.length_map, List.length_map, length_entries, map_actives]
  exact finals_image (f := fun nodes => some (bitsOf rev nodes)) (unite_bitsOf rev) (some_bitsOf_nil rev) _

/-- **The slices that are shown** are those that the enumerator lists. -/
theorem lists_makeQsetEnumerator (hrange : InRange false q) (h : Buildable rev q) :
    ∃ E, makeQsetEnumerator rev q = some E ∧ ListsPart rev E (shownPart q) := by
  induction q using SCPQuorumSet.induct with
  | mk t v i ih =>
    obtain ⟨⟨hpos, hle, -⟩, hinner⟩ := inRange_mk.mp hrange
    have hentry : ∀ e ∈ entries (.mk t v i), ∃ E, entryEnumerator rev e = some E ∧
        ListsPart rev E (entryPart e) := by
      intro e he
      rcases mem_entries.mp he with ⟨n, hn, rfl⟩ | ⟨q, hq, rfl⟩
      · obtain ⟨hmem, hlt⟩ := h.numbered n (by
          rw [forAllNodesInternal]
          exact List.mem_append_left _ hn)
        exact lists_node hmem hlt
      · exact ih q hq (hinner q hq) (h.inner hq)
    obtain ⟨Es, hEs, hlists⟩ := exists_listsParts hentry
    have hlen : Es.length = (SCPQuorumSet.mk t v i).totEntries := by
      rw [hlists.length_eq, List.length_map, length_entries]
    have hsmall := h.small (.mk t v i) (by rw [allSets]; exact List.mem_cons_self)
    obtain ⟨I, hI⟩ : ∃ I,
        PermutationEnumerator t.val (SCPQuorumSet.mk t v i).totEntries = some I :=
      ⟨_, if_pos ⟨hle, hpos, hsmall⟩⟩
    have hsound : Sound (((entries (.mk t v i)).map entryPart).map (bitsPart rev))
        (Es.map fun _ => true) (States.start Es) :=
      sound_of_forall₂ (List.forall₂_map_right_iff.mpr hlists)
    have hne : ∀ P ∈ ((entries (.mk t v i)).map entryPart).map (bitsPart rev), P.values ≠ [] := by
      intro P hP
      rw [List.map_map] at hP
      obtain ⟨e, he, rfl⟩ := List.mem_map.mp hP
      refine fun hnil => ?_
      have hnil := List.map_eq_nil_iff.mp hnil
      rcases mem_entries.mp he with ⟨n, -, rfl⟩ | ⟨q, hq, rfl⟩
      · cases hnil
      · exact shownPart_ne_nil (hinner q hq) hnil
    have hchoices : I.Lists ((choices (.mk t v i)).map some) none I.start
        ((choices (.mk t v i)).map some) := lists_permutation hI
    have hselection := lists_selection hchoices (choices_ne_nil hle) hsound hne
    rw [selected_entries, lastFinals_entries] at hselection
    refine ⟨SelectionEnumerator I Es, ?_, hselection⟩
    rw [makeQsetEnumerator_eq, hEs, Option.bind_some, hlen, SCPQuorumSet.threshold, hI,
      Option.map_some]

theorem built_of_mapM {α : Type} {f : α → Option BitsetEnumerator} {xs : List α}
    {Es : List BitsetEnumerator} (h : xs.mapM f = some Es) :
    Es.length = xs.length ∧ ∀ x ∈ xs, ∃ E, f x = some E := by
  induction xs generalizing Es with
  | nil =>
    obtain rfl := Option.some.inj h
    exact ⟨rfl, fun _ hx => by cases hx⟩
  | cons x xs ih =>
    rw [List.mapM_cons] at h
    obtain ⟨E, hE, h⟩ := Option.bind_eq_some_iff.mp h
    obtain ⟨Es', hEs, h⟩ := Option.bind_eq_some_iff.mp h
    obtain rfl := Option.some.inj h
    obtain ⟨hlen, hall⟩ := ih hEs
    exact ⟨by simp [hlen], List.forall_mem_cons.mpr ⟨⟨E, hE⟩, hall⟩⟩

/-- If no assertion fails, the nodes are numbered, and no choice is one of 64 bits. -/
theorem buildable_of_makeQsetEnumerator {E : BitsetEnumerator}
    (h : makeQsetEnumerator rev q = some E) : Buildable rev q := by
  induction q using SCPQuorumSet.induct generalizing E with
  | mk t v i ih =>
    rw [makeQsetEnumerator_eq] at h
    obtain ⟨Es, hEs, h⟩ := Option.bind_eq_some_iff.mp h
    obtain ⟨I, hI, -⟩ := Option.map_eq_some_iff.mp h
    obtain ⟨hlen, hentry⟩ := built_of_mapM hEs
    rw [length_entries] at hlen
    unfold PermutationEnumerator at hI
    split_ifs at hI with hasserted
    constructor
    · intro n hn
      rw [forAllNodesInternal, forAllNodesOf_eq, List.mem_append, List.mem_flatMap] at hn
      rcases hn with hn | ⟨q, hq, hn⟩
      · obtain ⟨E, hE⟩ := hentry (.inl n) (mem_entries.mpr (.inl ⟨n, hn, rfl⟩))
        obtain ⟨k, hk, hbit⟩ := Option.bind_eq_some_iff.mp hE
        unfold nodeNumber at hk
        split_ifs at hk with hmem
        obtain rfl := Option.some.inj hk
        unfold bitNumber at hbit
        split_ifs at hbit with hlt
        exact ⟨hmem, hlt⟩
      · obtain ⟨E, hE⟩ := hentry (.inr q) (mem_entries.mpr (.inr ⟨q, hq, rfl⟩))
        exact (ih q hq hE).numbered n hn
    · intro p hp
      rw [allSets, allSetsOf_eq, List.mem_cons, List.mem_flatMap] at hp
      rcases hp with rfl | ⟨q, hq, hp⟩
      · exact hlen ▸ hasserted.2.2
      · obtain ⟨E, hE⟩ := hentry (.inr q) (mem_entries.mpr (.inr ⟨q, hq, rfl⟩))
        exact (ih q hq hE).small p hp

/-! ## Slices are slices -/

theorem choice_of_mem {b : Bits} (hsmall : q.totEntries < 64) (hb : b ∈ choices q) :
    (select b q.totEntries).count true = q.threshold.val := by
  obtain ⟨a, ha, rfl⟩ := List.mem_map.mp hb
  rw [count_select hsmall.le, (mem_combinations.mp ha).2]

theorem getLastD_mem_choices (h : q.threshold.val ≤ q.totEntries) :
    (choices q).getLastD 0#64 ∈ choices q := by
  rw [List.getLastD_eq_getLast?, List.getLast?_eq_some_getLast (choices_ne_nil h)]
  exact List.getLast_mem _

/-- What is shown is put together from the entries that are chosen. -/
theorem exists_choice (hrange : InRange false q) {x : List NodeID}
    (hx : x ∈ (shownPart q).final :: (shownPart q).values) :
    ∃ b ∈ choices q, Util.Picked (· ++ ·) []
      (actives (select b q.totEntries) ((entries q).map entryPart)) x := by
  have hle : q.threshold.val ≤ q.totEntries := by
    cases q with
    | mk t v i => exact (inRange_mk.mp hrange).1.2.1
  have hne (b : Bits) : ∀ P ∈ actives (select b q.totEntries) ((entries q).map entryPart),
      P.values ≠ [] := by
    intro P hP
    obtain ⟨e, he, rfl⟩ := List.mem_map.mp (mem_actives hP)
    cases q with
    | mk t v i =>
      rcases mem_entries.mp he with ⟨n, -, rfl⟩ | ⟨q, hq, rfl⟩
      · exact List.cons_ne_nil _ _
      · exact shownPart_ne_nil ((inRange_mk.mp hrange).2 q hq)
  rw [shownPart_eq] at hx
  rcases List.mem_cons.mp hx with rfl | hx
  · exact ⟨_, getLastD_mem_choices hle, picked_finals _⟩
  · obtain ⟨b, hb, hx⟩ := List.mem_flatMap.mp hx
    exact ⟨b, hb, picked_turn (hne b) hx⟩

/-- Only nodes of the quorum set are shown. -/
theorem shown_subset (hrange : InRange false q) {x : List NodeID}
    (hx : x ∈ (shownPart q).final :: (shownPart q).values) : x ⊆ q.forAllNodesInternal := by
  induction q using SCPQuorumSet.induct generalizing x with
  | mk t v i ih =>
    obtain ⟨b, -, hpicked⟩ := exists_choice hrange hx
    intro n hn
    obtain ⟨P, hP, y, hy, hn⟩ := hpicked.mem hn
    obtain ⟨e, he, rfl⟩ := List.mem_map.mp (mem_actives hP)
    rw [forAllNodesInternal, forAllNodesOf_eq]
    rcases mem_entries.mp he with ⟨m, hm, rfl⟩ | ⟨q, hq, rfl⟩
    · have hsingle : n = m := by
        rcases List.mem_cons.mp hy with rfl | hy
        · exact List.mem_singleton.mp hn
        · obtain rfl := List.mem_singleton.mp hy
          exact List.mem_singleton.mp hn
      exact List.mem_append_left _ (hsingle ▸ hm)
    · exact List.mem_append_right _
        (List.mem_flatMap.mpr ⟨q, hq, ih q hq ((inRange_mk.mp hrange).2 q hq) hy hn⟩)

/-- Whether nodes have what an entry asks for. -/
def entryHit (U : List NodeID) : NodeID ⊕ SCPQuorumSet → Bool
  | .inl n => U.contains n
  | .inr q => isQuorumSliceInternal U q

theorem isQuorumSlice_iff_countP (hpos : 1 ≤ q.threshold.val) (U : List NodeID) :
    isQuorumSlice q U = true ↔ q.threshold.val ≤ (entries q).countP (entryHit U) := by
  cases q with
  | mk t v i =>
    have hcount : (v.map (fun validator => U.contains validator) ++ innerSlices U i).count true =
        (entries (.mk t v i)).countP (entryHit U) := by
      rw [innerSlices_eq, entries, List.count_append, List.countP_append, List.count_eq_countP,
        List.count_eq_countP, List.countP_map, List.countP_map, List.countP_map, List.countP_map]
      congr 1 <;> exact List.countP_congr fun _ _ => by simp [entryHit]
    have hpos : 1 ≤ t.val := hpos
    rw [isQuorumSlice, isQuorumSliceInternal, countdown_uint32 hpos, hcount]
    rfl

/-- **What is shown is a slice.** -/
theorem isQuorumSlice_of_shown (hrange : InRange false q) (hsmall : ∀ p ∈ q.allSets, p.totEntries < 64)
    {x U : List NodeID} (hx : x ∈ (shownPart q).final :: (shownPart q).values) (hsub : x ⊆ U) :
    isQuorumSlice q U = true := by
  induction q using SCPQuorumSet.induct generalizing x with
  | mk t v i ih =>
    obtain ⟨⟨hpos, -, -⟩, hinner⟩ := inRange_mk.mp hrange
    have hself := hsmall (.mk t v i) (by rw [allSets]; exact List.mem_cons_self)
    obtain ⟨b, hb, hpicked⟩ := exists_choice hrange hx
    rw [map_actives] at hpicked
    rw [isQuorumSlice_iff_countP (q := .mk t v i) hpos, ← choice_of_mem hself hb]
    have hlen : (select b (SCPQuorumSet.mk t v i).totEntries).length =
        (entries (.mk t v i)).length := by
      rw [length_select, length_entries]
    refine count_le_of_actives hlen fun e he => ?_
    obtain ⟨y, hy, hsub'⟩ := hpicked.subset _ (List.mem_map_of_mem he)
    rcases mem_entries.mp (mem_actives he) with ⟨m, -, rfl⟩ | ⟨q, hq, rfl⟩
    · have hsingle : y = [m] := by
        rcases List.mem_cons.mp hy with rfl | hy
        · rfl
        · exact List.mem_singleton.mp hy
      have hm : m ∈ U := hsub (hsub' (hsingle ▸ List.mem_singleton_self m))
      simp [entryHit, hm]
    · exact ih q hq (hinner q hq) (fun p hp => hsmall p (allSets_subset hq hp)) hy
        fun n hn => hsub (hsub' hn)

/-! ## Sets of bits -/

theorem or_eq_left_iff {B x : Bits} :
    B ||| x = B ↔ ∀ i < 64, x.getLsbD i = true → B.getLsbD i = true := by
  constructor
  · intro h i _ hx
    rw [← h, BitVec.getLsbD_or, hx, Bool.or_true]
  · intro h
    apply BitVec.eq_of_getLsbD_eq
    intro i hi
    rw [BitVec.getLsbD_or]
    cases hx : x.getLsbD i with
    | false => rw [Bool.or_false]
    | true => rw [h i hi hx, Bool.or_true]

theorem getLsbD_bitsOf (rev nodes : List NodeID) {i : ℕ} (hi : i < 64) :
    (bitsOf rev nodes).getLsbD i = true ↔ ∃ n ∈ nodes, rev.idxOf n = i := by
  induction nodes with
  | nil => simp [bitsOf]
  | cons n nodes ih =>
    have hcons : bitsOf rev (n :: nodes) = (1#64 <<< rev.idxOf n) ||| bitsOf rev nodes := rfl
    rw [hcons, BitVec.getLsbD_or, Bool.or_eq_true, ih, getLsbD_bit hi, decide_eq_true_iff]
    simp

/-- The nodes whose bits are in the set. -/
def membersOf (rev : List NodeID) (B : Bits) : List NodeID :=
  rev.filter fun n => B.getLsbD (rev.idxOf n)

theorem mem_membersOf {B : Bits} {n : NodeID} :
    n ∈ membersOf rev B ↔ n ∈ rev ∧ B.getLsbD (rev.idxOf n) = true :=
  List.mem_filter

/-- Nodes are covered by a set of bits if they are its members. -/
theorem covers_iff {B : Bits} {nodes : List NodeID}
    (hnodes : ∀ n ∈ nodes, n ∈ rev ∧ rev.idxOf n < 64) :
    B ||| bitsOf rev nodes = B ↔ nodes ⊆ membersOf rev B := by
  rw [or_eq_left_iff]
  constructor
  · intro h n hn
    obtain ⟨hmem, hlt⟩ := hnodes n hn
    exact mem_membersOf.mpr ⟨hmem, h _ hlt ((getLsbD_bitsOf rev nodes hlt).mpr ⟨n, hn, rfl⟩)⟩
  · intro h i hi hbit
    obtain ⟨n, hn, rfl⟩ := (getLsbD_bitsOf rev nodes hi).mp hbit
    exact (mem_membersOf.mp (h hn)).2

/-! ## The enumerator of the slices of a node -/

/-- The quorum set of a node is in order, and the node has a bit. -/
structure Ready (rev : List NodeID) (pk : NodeID) (q : SCPQuorumSet) : Prop where
  range : InRange false q
  numbered : pk ∈ rev ∧ rev.idxOf pk < 64
  buildable : Buildable rev q

variable {iq : InferredQuorum} {pk : NodeID}

theorem lists_makeSliceEnumerator (hq : iq.qsetOf pk = some q) (h : Ready rev pk q) :
    ∃ E final, makeSliceEnumerator iq rev pk = some E ∧
      E.Lists (((shownPart q).values.map fun x => bitsOf rev (pk :: x)).map some) final E.start
        (((shownPart q).values.map fun x => bitsOf rev (pk :: x)).map some) := by
  obtain ⟨E, hE, hlists⟩ := lists_makeQsetEnumerator h.range h.buildable
  obtain ⟨S, hS, hself⟩ := lists_node h.numbered.1 h.numbered.2
  have hvalues : ∀ P ∈ [bitsPart rev (entryPart (.inl pk)), bitsPart rev (shownPart q)],
      P.values ≠ [] := by
    intro P hP
    simp only [List.mem_cons, List.not_mem_nil, or_false] at hP
    rcases hP with rfl | rfl
    · exact List.cons_ne_nil _ _
    · exact fun hnil => shownPart_ne_nil h.range (List.map_eq_nil_iff.mp hnil)
  have hproduct := lists_cartesian (sound_of_forall₂ (.cons hself (.cons hlists .nil)))
    (List.cons_ne_nil S [E]) hvalues
  have hvisited : visitedOr [bitsPart rev (entryPart (.inl pk)), bitsPart rev (shownPart q)] =
      ((shownPart q).values.map fun x => bitsOf rev (pk :: x)).map some := by
    have hchain : chainOr [bitsPart rev (shownPart q)] = (bitsPart rev (shownPart q)).values := by
      rw [chainOr, chain, chain]
      simp [unite]
    rw [visitedOr, visited, show chain unite (some 0#64) [bitsPart rev (shownPart q)] = _ from hchain]
    simp only [Util.Part.image, entryPart, bitsOf_singleton, unite, List.flatMap_map, List.map_cons,
      List.map_nil, Option.map₂_some_some]
    rw [← List.map_eq_flatMap, List.map_map]
    rfl
  rw [hvisited] at hproduct
  refine ⟨CartesianProductEnumerator [S, E], _, ?_, hproduct⟩
  unfold makeSliceEnumerator
  have hS : (nodeNumber rev pk).bind bitNumber = some S := hS
  rw [hS, hq, Option.bind_some, hE]
  rfl

theorem containsSlice_eq {E : BitsetEnumerator} {full : List (Option Bits)} {final : Option Bits}
    {s : E.State} {xs : List Bits} {B : Bits} {fuel : ℕ} (h : E.Lists full final s (xs.map some))
    (hfuel : xs.length ≤ fuel) :
    containsSlice B E fuel s = some (xs.any fun x => B ||| x = B) := by
  induction xs generalizing s fuel with
  | nil =>
    have hbool : E.bool s = false := h.bool
    cases fuel <;> simp [containsSlice, hbool]
  | cons x xs ih =>
    obtain ⟨fuel, rfl⟩ : ∃ k, fuel = k + 1 := ⟨fuel - 1, by simp at hfuel; omega⟩
    have hbool : E.bool s = true := h.bool
    have hderef : E.deref s = x := Enumerator.known_some.mp h.deref
    have hnext := ih h.next (Nat.le_of_succ_le_succ hfuel)
    rw [containsSlice, if_pos hbool, hderef, hnext, List.any_cons]
    split_ifs with hcovers <;> simp [hcovers]

/-! ## What is found -/

/-- A member has a slice among the nodes `U` that is shown. -/
def ShowsSlice (iq : InferredQuorum) (U : List NodeID) (pk : NodeID) : Prop :=
  ∃ q, iq.qsetOf pk = some q ∧ ∃ slice ∈ shownSlices q, slice ⊆ U

/-- The slices of a node can be enumerated in `fuel` rounds. -/
def Searchable (iq : InferredQuorum) (rev : List NodeID) (fuel : ℕ) (pk : NodeID) : Prop :=
  ∃ q, iq.qsetOf pk = some q ∧ Ready rev pk q ∧ (shownSlices q).length ≤ fuel

/-- The search for a slice of a member. -/
theorem exists_slice {fuel : ℕ} {B : Bits} (h : Searchable iq rev fuel pk)
    (hbit : B.getLsbD (rev.idxOf pk) = true) :
    ∃ E b, makeSliceEnumerator iq rev pk = some E ∧ containsSlice B E fuel E.start = some b ∧
      (b = true ↔ ShowsSlice iq (membersOf rev B) pk) := by
  obtain ⟨q, hq, hready, hfuel⟩ := h
  obtain ⟨E, final, hE, hlists⟩ := lists_makeSliceEnumerator hq hready
  refine ⟨E, _, hE, containsSlice_eq hlists (by rwa [List.length_map]), ?_⟩
  have hcovers : ∀ slice ∈ shownSlices q,
      (B ||| bitsOf rev (pk :: slice) = B ↔ slice ⊆ membersOf rev B) := by
    intro slice hslice
    have hnodes : ∀ n ∈ pk :: slice, n ∈ rev ∧ rev.idxOf n < 64 := by
      refine List.forall_mem_cons.mpr ⟨hready.numbered, fun n hn => hready.buildable.numbered n ?_⟩
      exact shown_subset hready.range (List.mem_cons_of_mem _ hslice) hn
    have hself : pk ∈ membersOf rev B := mem_membersOf.mpr ⟨hready.numbered.1, hbit⟩
    rw [covers_iff hnodes, List.cons_subset]
    exact and_iff_right hself
  rw [List.any_eq_true]
  constructor
  · rintro ⟨x, hx, hcover⟩
    obtain ⟨slice, hslice, rfl⟩ := List.mem_map.mp hx
    exact ⟨q, hq, slice, hslice, (hcovers slice hslice).mp (of_decide_eq_true hcover)⟩
  · rintro ⟨q', hq', slice, hslice, hsub⟩
    obtain rfl := Option.some.inj (hq.symm.trans hq')
    exact ⟨_, List.mem_map_of_mem hslice, decide_eq_true ((hcovers slice hslice).mpr hsub)⟩

theorem allContained_eq {fuel : ℕ} {B : Bits} (is : List ℕ)
    (h : ∀ i ∈ is, B.getLsbD i = true → ∃ pk, rev[i]? = some pk ∧ rev.idxOf pk = i ∧
      Searchable iq rev fuel pk) :
    ∃ b, allContained iq rev fuel B is = some b ∧
      (b = true ↔ ∀ i ∈ is, B.getLsbD i = true → ∀ pk, rev[i]? = some pk →
        ShowsSlice iq (membersOf rev B) pk) := by
  induction is with
  | nil => exact ⟨true, rfl, by simp⟩
  | cons i is ih =>
    obtain ⟨b, hb, hiff⟩ := ih fun j hj => h j (List.mem_cons_of_mem _ hj)
    by_cases hbit : B.getLsbD i = true
    · obtain ⟨pk, hpk, hidx, hsearchable⟩ := h i List.mem_cons_self hbit
      obtain ⟨E, found, hE, hfound, hshows⟩ := exists_slice hsearchable (hidx ▸ hbit)
      have hself : (∀ pk', rev[i]? = some pk' → ShowsSlice iq (membersOf rev B) pk') ↔
          found = true := by
        rw [hshows]
        constructor
        · exact fun hall => hall pk hpk
        · intro hshown pk' hpk'
          obtain rfl := Option.some.inj (hpk.symm.trans hpk')
          exact hshown
      refine ⟨found && b, ?_, ?_⟩
      · rw [allContained, if_pos hbit, hpk, Option.bind_some, hE, Option.bind_some, hfound]
        cases found <;> simp [hb]
      · rw [Bool.and_eq_true, hiff, List.forall_mem_cons, ← hself]
        simp [hbit]
    · refine ⟨b, by rw [allContained, if_neg hbit, hb], ?_⟩
      rw [hiff, List.forall_mem_cons]
      simp [hbit]

/-- **Quorums that are found** are sets whose members all have slices that are shown. -/
theorem isQuorum_eq {fuel : ℕ} {B : Bits} (hnodup : rev.Nodup)
    (h : ∀ i < 64, B.getLsbD i = true → ∃ pk, rev[i]? = some pk ∧ Searchable iq rev fuel pk) :
    ∃ b, isQuorum iq rev fuel B = some b ∧
      (b = true ↔ ∀ pk ∈ membersOf rev B, ShowsSlice iq (membersOf rev B) pk) := by
  have hidx : ∀ {i pk}, rev[i]? = some pk → rev.idxOf pk = i := by
    intro i pk hpk
    obtain ⟨hi, rfl⟩ := List.getElem?_eq_some_iff.mp hpk
    exact hnodup.idxOf_getElem i hi
  obtain ⟨b, hb, hiff⟩ := allContained_eq (List.range 64) fun i hi hbit => by
    obtain ⟨pk, hpk, hsearchable⟩ := h i (List.mem_range.mp hi) hbit
    exact ⟨pk, hpk, hidx hpk, hsearchable⟩
  refine ⟨b, hb, hiff.trans ⟨fun hall pk hpk => ?_, fun hall i _ hbit pk hpk => ?_⟩⟩
  · obtain ⟨hmem, hbit⟩ := mem_membersOf.mp hpk
    have hlt : rev.idxOf pk < 64 := by
      by_contra hge
      rw [BitVec.getLsbD_of_ge B _ (by omega)] at hbit
      cases hbit
    exact hall _ (List.mem_range.mpr hlt) hbit pk (List.getElem?_idxOf hmem)
  · refine hall pk (mem_membersOf.mpr ⟨List.mem_of_getElem? hpk, ?_⟩)
    rwa [hidx hpk]

/-- A single node is only looked at if its slices can be enumerated. -/
theorem built_of_allContained {fuel i : ℕ} {B : Bits} {is : List ℕ} {b : Bool}
    (h : allContained iq rev fuel B is = some b) (hi : i ∈ is) (hbit : B.getLsbD i = true)
    (honly : ∀ j ∈ is, B.getLsbD j = true → j = i) :
    ∃ pk E, rev[i]? = some pk ∧ makeSliceEnumerator iq rev pk = some E := by
  induction is with
  | nil => cases hi
  | cons j is ih =>
    rw [allContained] at h
    split_ifs at h with hj
    · obtain rfl := honly j List.mem_cons_self hj
      obtain ⟨found, hfound, -⟩ := Option.bind_eq_some_iff.mp h
      obtain ⟨E, hE, -⟩ := Option.bind_eq_some_iff.mp hfound
      obtain ⟨pk, hpk, hE⟩ := Option.bind_eq_some_iff.mp hE
      exact ⟨pk, E, hpk, hE⟩
    · refine ih h ((List.mem_cons.mp hi).resolve_left ?_)
        fun k hk => honly k (List.mem_cons_of_mem _ hk)
      rintro rfl
      exact hj hbit

/-! ## Quorums -/

/-- A quorum: a set with a slice of each of its members. -/
def IsQuorum (iq : InferredQuorum) (U : List NodeID) : Prop :=
  U ≠ [] ∧ ∀ pk ∈ U, ∃ q, iq.qsetOf pk = some q ∧ isQuorumSlice q U = true

/-- A quorum whose members have slices that are shown. -/
def ShownQuorum (iq : InferredQuorum) (U : List NodeID) : Prop :=
  U ≠ [] ∧ ∀ pk ∈ U, ShowsSlice iq U pk

/-- Any two share a node. -/
def Intersecting (p : List NodeID → Prop) : Prop :=
  ∀ U₁ U₂, p U₁ → p U₂ → ∃ pk, pk ∈ U₁ ∧ pk ∈ U₂

/-- The orders in which the hash map of the nodes, and the hash set of the numbers of those with
quorum sets, are iterated over. -/
structure Iterates (iq : InferredQuorum) (rev : List NodeID) (nodesWithQsets : List ℕ) : Prop where
  nodup : rev.Nodup
  nodes : ∀ pk, pk ∈ rev ↔ pk ∈ iq.mPubKeys
  numbers : nodesWithQsets.Nodup ∧ ∀ i, i ∈ nodesWithQsets ↔
    ∃ n ∈ iq.mQsetHashes, nodeNumber rev n.1 = some i

/-- No assertion fails, and no shift is undefined. -/
structure Runs (iq : InferredQuorum) (rev : List NodeID) (nodesWithQsets : List ℕ) : Prop where
  noted : ∀ n ∈ iq.mQsetHashes, iq.mQsets.contains n.2 = true
  few : nodesWithQsets.length < 31
  numbered : ∀ i ∈ nodesWithQsets, i < 64
  buildable : ∀ pk q, iq.qsetOf pk = some q → Buildable rev q

variable {nodesWithQsets : List ℕ}

theorem mem_of_qsetOf (h : iq.qsetOf pk = some q) : ∃ qsh, (pk, qsh) ∈ iq.mQsetHashes ∧
    iq.mQsets[qsh]? = some q := by
  obtain ⟨qsh, hqsh, hq⟩ := Option.bind_eq_some_iff.mp h
  obtain ⟨l₁, l₂, hl, -⟩ := List.lookup_eq_some_iff.mp hqsh
  exact ⟨qsh, hl ▸ List.mem_append_right _ List.mem_cons_self, hq⟩

theorem qsetOf_of_mem {n : NodeID × Hash} (hn : n ∈ iq.mQsetHashes)
    (hnoted : ∀ n ∈ iq.mQsetHashes, iq.mQsets.contains n.2 = true) :
    ∃ q, iq.qsetOf n.1 = some q := by
  cases hlookup : iq.mQsetHashes.lookup n.1 with
  | none =>
    have hne := List.lookup_eq_none_iff.mp hlookup n hn
    simp at hne
  | some qsh =>
    obtain ⟨l₁, l₂, hl, -⟩ := List.lookup_eq_some_iff.mp hlookup
    have hmem : (n.1, qsh) ∈ iq.mQsetHashes := hl ▸ List.mem_append_right _ List.mem_cons_self
    have hcontains := hnoted _ hmem
    rw [Std.ExtTreeMap.contains_iff_mem, Std.ExtTreeMap.mem_iff_isSome_getElem?] at hcontains
    obtain ⟨q, hq⟩ := Option.isSome_iff_exists.mp hcontains
    exact ⟨q, by rw [qsetOf, hlookup]; exact hq⟩

theorem nodeNumber_eq_some {i : ℕ} :
    nodeNumber rev pk = some i ↔ pk ∈ rev ∧ rev.idxOf pk = i := by
  unfold nodeNumber
  split_ifs with hmem <;> simp [hmem]

theorem candidateEnumerator_eq (hfew : nodesWithQsets.length < 31)
    (hnumbered : ∀ i ∈ nodesWithQsets, i < 64) :
    ∃ E, candidateEnumerator nodesWithQsets = some E ∧
      E.Yields E.start (unions (nodesWithQsets.map fun k => 1#64 <<< k)) := by
  have hmap : nodesWithQsets.mapM bitNumber =
      some ((nodesWithQsets.map fun k => 1#64 <<< k).map ConstantEnumerator) := by
    clear hfew
    induction nodesWithQsets with
    | nil => rfl
    | cons i is ih =>
      obtain ⟨hi, his⟩ := List.forall_mem_cons.mp hnumbered
      have hbit : bitNumber i = some (ConstantEnumerator (1#64 <<< i)) := if_pos hi
      rw [List.mapM_cons, hbit, ih his]
      rfl
  have hpowerset : ∃ index, PowersetEnumerator nodesWithQsets.length = some index :=
    ⟨_, if_pos hfew⟩
  obtain ⟨index, hindex⟩ := hpowerset
  refine ⟨SelectionEnumerator index _, ?_, yields_unions (by rwa [List.length_map])⟩
  unfold candidateEnumerator
  rw [hmap]
  simp [hindex]

theorem of_candidateEnumerator {E : BitsetEnumerator}
    (h : candidateEnumerator nodesWithQsets = some E) :
    nodesWithQsets.length < 31 ∧ ∀ i ∈ nodesWithQsets, i < 64 := by
  obtain ⟨Es, hEs, h⟩ := Option.bind_eq_some_iff.mp h
  obtain ⟨index, hindex, -⟩ := Option.bind_eq_some_iff.mp h
  obtain ⟨hlen, hbuilt⟩ := built_of_mapM hEs
  unfold PowersetEnumerator at hindex
  split_ifs at hindex with hfew
  refine ⟨hlen ▸ hfew, fun i hi => ?_⟩
  obtain ⟨E, hE⟩ := hbuilt i hi
  unfold bitNumber at hE
  split_ifs at hE with hlt
  exact hlt

theorem findQuorums_eq {fuel : ℕ} {Bs : List Bits}
    (h : ∀ B ∈ Bs, ∃ b, isQuorum iq rev fuel B = some b) :
    ∃ Qs, findQuorums iq rev fuel Bs = some Qs ∧
      ∀ B, B ∈ Qs ↔ B ∈ Bs ∧ isQuorum iq rev fuel B = some true := by
  induction Bs with
  | nil => exact ⟨[], rfl, by simp⟩
  | cons B Bs ih =>
    obtain ⟨b, hb⟩ := h B List.mem_cons_self
    obtain ⟨Qs, hQs, hmem⟩ := ih fun B' hB' => h B' (List.mem_cons_of_mem _ hB')
    refine ⟨if b then B :: Qs else Qs, by simp [findQuorums, hb, hQs], fun B' => ?_⟩
    cases b with
    | false =>
      rw [if_neg (by decide), hmem, List.mem_cons, or_and_right]
      refine (or_iff_right ?_).symm
      rintro ⟨rfl, hB⟩
      rw [hb] at hB
      cases hB
    | true =>
      rw [if_pos rfl, List.mem_cons, hmem, List.mem_cons, or_and_right]
      refine or_congr_left ⟨fun heq => ⟨heq, heq ▸ hb⟩, And.left⟩

theorem of_findQuorums {fuel : ℕ} {Bs Qs : List Bits} (h : findQuorums iq rev fuel Bs = some Qs) :
    ∀ B ∈ Bs, ∃ b, isQuorum iq rev fuel B = some b := by
  induction Bs generalizing Qs with
  | nil => exact fun _ hB => by cases hB
  | cons B Bs ih =>
    obtain ⟨b, hb, h⟩ := Option.bind_eq_some_iff.mp h
    obtain ⟨Qs', hQs', -⟩ := Option.bind_eq_some_iff.mp h
    exact List.forall_mem_cons.mpr ⟨⟨b, hb⟩, ih hQs'⟩

/-! ## The answer -/

/-- Nodes and their bits. -/
theorem mem_membersOf_bitsOf {U : List NodeID}
    (hU : ∀ n ∈ U, n ∈ rev ∧ rev.idxOf n < 64) {n : NodeID} :
    n ∈ membersOf rev (bitsOf rev U) ↔ n ∈ U := by
  rw [mem_membersOf]
  constructor
  · rintro ⟨hmem, hbit⟩
    have hlt : rev.idxOf n < 64 := by
      by_contra hge
      rw [BitVec.getLsbD_of_ge _ _ (by omega)] at hbit
      cases hbit
    obtain ⟨m, hm, heq⟩ := (getLsbD_bitsOf rev U hlt).mp hbit
    rwa [← (List.idxOf_inj (hU m hm).1).mp heq]
  · intro hn
    obtain ⟨hmem, hlt⟩ := hU n hn
    exact ⟨hmem, (getLsbD_bitsOf rev U hlt).mpr ⟨n, hn, rfl⟩⟩

theorem ShowsSlice.congr {U V : List NodeID} (h : ∀ n, n ∈ U ↔ n ∈ V) (hU : ShowsSlice iq U pk) :
    ShowsSlice iq V pk := by
  obtain ⟨q, hq, slice, hslice, hsub⟩ := hU
  exact ⟨q, hq, slice, hslice, fun n hn => (h n).mp (hsub hn)⟩

/-- What is known of the nodes with quorum sets. -/
structure InOrder (iq : InferredQuorum) (rev : List NodeID) (nodesWithQsets : List ℕ) : Prop where
  nodup : rev.Nodup
  numbers : ∀ i, i ∈ nodesWithQsets ↔ ∃ n ∈ iq.mQsetHashes, nodeNumber rev n.1 = some i
  known : ∀ n ∈ iq.mQsetHashes, n.1 ∈ rev
  range : ∀ pk q, iq.qsetOf pk = some q → InRange false q

/-- A node with a quorum set has a bit that is looked at. -/
theorem InOrder.number (h : InOrder iq rev nodesWithQsets) (hq : iq.qsetOf pk = some q) :
    pk ∈ rev ∧ rev.idxOf pk ∈ nodesWithQsets := by
  obtain ⟨qsh, hmem, -⟩ := mem_of_qsetOf hq
  have hknown : pk ∈ rev := h.known _ hmem
  exact ⟨hknown, (h.numbers _).mpr ⟨_, hmem, nodeNumber_eq hknown⟩⟩

theorem InOrder.ready (h : InOrder iq rev nodesWithQsets) (hruns : Runs iq rev nodesWithQsets)
    (hq : iq.qsetOf pk = some q) : Ready rev pk q := by
  obtain ⟨hmem, hnumber⟩ := h.number hq
  exact ⟨h.range pk q hq, ⟨hmem, hruns.numbered _ hnumber⟩, hruns.buildable pk q hq⟩

/-- Time for all slices. -/
theorem exists_fuel (h : InOrder iq rev nodesWithQsets) (hruns : Runs iq rev nodesWithQsets) :
    ∃ N, ∀ fuel ≥ N, ∀ i ∈ nodesWithQsets, ∃ pk, rev[i]? = some pk ∧
      Searchable iq rev fuel pk := by
  have heach : ∀ i ∈ nodesWithQsets, ∃ N, ∀ fuel ≥ N, ∃ pk, rev[i]? = some pk ∧
      Searchable iq rev fuel pk := by
    intro i hi
    obtain ⟨n, hn, hnumber⟩ := (h.numbers i).mp hi
    obtain ⟨hmem, rfl⟩ := nodeNumber_eq_some.mp hnumber
    obtain ⟨q, hq⟩ := qsetOf_of_mem hn hruns.noted
    exact ⟨(shownSlices q).length, fun fuel hfuel =>
      ⟨n.1, List.getElem?_idxOf hmem, q, hq, h.ready hruns hq, hfuel⟩⟩
  clear h hruns
  induction nodesWithQsets with
  | nil => exact ⟨0, fun _ _ _ hi => by cases hi⟩
  | cons i is ih =>
    obtain ⟨⟨N, hN⟩, his⟩ := List.forall_mem_cons.mp heach
    obtain ⟨M, hM⟩ := ih his
    refine ⟨max N M, fun fuel hfuel => List.forall_mem_cons.mpr ⟨hN fuel ?_, hM fuel ?_⟩⟩
    · exact (Nat.le_max_left N M).trans hfuel
    · exact (Nat.le_max_right N M).trans hfuel

/-- The bits of nodes with quorum sets are a candidate. -/
theorem bitsOf_mem_unions (h : InOrder iq rev nodesWithQsets) (hruns : Runs iq rev nodesWithQsets)
    {U : List NodeID} (hne : U ≠ []) (hU : ∀ pk ∈ U, ∃ q, iq.qsetOf pk = some q) :
    bitsOf rev U ∈ unions (nodesWithQsets.map fun k => 1#64 <<< k) := by
  have hbit {pk : NodeID} (hpk : pk ∈ U) : rev.idxOf pk ∈ nodesWithQsets := by
    obtain ⟨q, hq⟩ := hU pk hpk
    exact (h.number hq).2
  refine (mem_unions hruns.few hruns.numbered).mpr ⟨fun hzero => ?_, fun i hi hin => ?_⟩
  · obtain ⟨pk, hpk⟩ := List.exists_mem_of_ne_nil U hne
    have hlt := hruns.numbered _ (hbit hpk)
    have hin := (getLsbD_bitsOf rev U hlt).mpr ⟨pk, hpk, rfl⟩
    rw [hzero, BitVec.getLsbD_zero] at hin
    cases hin
  · obtain ⟨pk, hpk, rfl⟩ := (getLsbD_bitsOf rev U hi).mp hin
    exact hbit hpk

/-- The members of a candidate. -/
theorem membersOf_ne_nil {B : Bits} (hbits : ∀ i < 64, B.getLsbD i = true →
      ∃ pk, rev[i]? = some pk ∧ rev.idxOf pk = i) (hne : B ≠ 0#64) : membersOf rev B ≠ [] := by
  obtain ⟨i, hi, hbit⟩ := exists_getLsbD hne
  obtain ⟨pk, hpk, rfl⟩ := hbits i hi hbit
  exact List.ne_nil_of_mem (mem_membersOf.mpr ⟨List.mem_of_getElem? hpk, hbit⟩)

/-- Two sets of bits are equal or have a bit in common, if and only if they share a member. -/
theorem share_iff {B C : Bits} (hB : B ≠ 0#64) (hbits : ∀ i < 64, B.getLsbD i = true →
      ∃ pk, rev[i]? = some pk ∧ rev.idxOf pk = i) :
    (B = C || B &&& C != 0#64) = true ↔ ∃ pk, pk ∈ membersOf rev B ∧ pk ∈ membersOf rev C := by
  rw [Bool.or_eq_true, decide_eq_true_iff, bne_iff_ne]
  constructor
  · intro h
    have hcommon : ∃ i < 64, B.getLsbD i = true ∧ C.getLsbD i = true := by
      rcases h with rfl | h
      · obtain ⟨i, hi, hbit⟩ := exists_getLsbD hB
        exact ⟨i, hi, hbit, hbit⟩
      · obtain ⟨i, hi, hbit⟩ := exists_getLsbD h
        rw [BitVec.getLsbD_and, Bool.and_eq_true] at hbit
        exact ⟨i, hi, hbit⟩
    obtain ⟨i, hi, hbitB, hbitC⟩ := hcommon
    obtain ⟨pk, hpk, rfl⟩ := hbits i hi hbitB
    have hmem := List.mem_of_getElem? hpk
    exact ⟨pk, mem_membersOf.mpr ⟨hmem, hbitB⟩, mem_membersOf.mpr ⟨hmem, hbitC⟩⟩
  · rintro ⟨pk, hpkB, hpkC⟩
    refine .inr fun hzero => ?_
    have hand : (B &&& C).getLsbD (rev.idxOf pk) = true := by
      rw [BitVec.getLsbD_and, (mem_membersOf.mp hpkB).2, (mem_membersOf.mp hpkC).2]
      rfl
    rw [hzero, BitVec.getLsbD_zero] at hand
    cases hand

theorem checkQuorumIntersection_of_fuel (h : InOrder iq rev nodesWithQsets)
    (hruns : Runs iq rev nodesWithQsets) {fuel : ℕ}
    (hfuel : ∀ i ∈ nodesWithQsets, ∃ pk, rev[i]? = some pk ∧ Searchable iq rev fuel pk)
    {E : BitsetEnumerator} (hE : candidateEnumerator nodesWithQsets = some E)
    (hvisits : E.visits fuel E.start = some (unions (nodesWithQsets.map fun k => 1#64 <<< k))) :
    ∃ b, checkQuorumIntersection iq rev nodesWithQsets fuel = some b ∧
      (b = true ↔ Intersecting (ShownQuorum iq)) := by
  have hidx {i : ℕ} (hi : i ∈ nodesWithQsets) : ∃ pk, rev[i]? = some pk ∧ rev.idxOf pk = i := by
    obtain ⟨n, -, hnumber⟩ := (h.numbers i).mp hi
    obtain ⟨hmem, rfl⟩ := nodeNumber_eq_some.mp hnumber
    exact ⟨n.1, List.getElem?_idxOf hmem, rfl⟩
  have hcandidate {B : Bits} (hB : B ∈ unions (nodesWithQsets.map fun k => 1#64 <<< k)) :=
    (mem_unions hruns.few hruns.numbered).mp hB
  have hquorum : ∀ B ∈ unions (nodesWithQsets.map fun k => 1#64 <<< k),
      ∃ b, isQuorum iq rev fuel B = some b ∧
        (b = true ↔ ∀ pk ∈ membersOf rev B, ShowsSlice iq (membersOf rev B) pk) :=
    fun B hB => isQuorum_eq h.nodup fun i hi hbit => hfuel i ((hcandidate hB).2 i hi hbit)
  obtain ⟨Qs, hQs, hmem⟩ := findQuorums_eq fun B hB => by
    obtain ⟨b, hb, -⟩ := hquorum B hB
    exact ⟨b, hb⟩
  have hfound {B : Bits} : B ∈ Qs ↔ B ∈ unions (nodesWithQsets.map fun k => 1#64 <<< k) ∧
      ∀ pk ∈ membersOf rev B, ShowsSlice iq (membersOf rev B) pk := by
    rw [hmem]
    refine and_congr_right fun hB => ?_
    obtain ⟨b, hb, hiff⟩ := hquorum B hB
    rw [hb, Option.some_inj, hiff]
  have hguard : ∀ n ∈ iq.mQsetHashes, iq.mQsets.contains n.2 ∧ n.1 ∈ rev :=
    fun n hn => ⟨hruns.noted n hn, h.known n hn⟩
  refine ⟨Qs.all fun B => Qs.all fun C => B = C || B &&& C != 0#64, ?_, ?_⟩
  · unfold checkQuorumIntersection
    rw [guard, if_pos hguard, hE, Option.bind_some, hvisits]
    simp [hQs]
  · have hbits {B : Bits} (hB : B ∈ Qs) : ∀ i < 64, B.getLsbD i = true →
        ∃ pk, rev[i]? = some pk ∧ rev.idxOf pk = i :=
      fun i hi hbit => hidx ((hcandidate (hfound.mp hB).1).2 i hi hbit)
    have hne {B : Bits} (hB : B ∈ Qs) : B ≠ 0#64 := (hcandidate (hfound.mp hB).1).1
    rw [List.all_eq_true]
    constructor
    · intro hall U V hU hV
      -- the bits of a quorum are found
      have hof {U : List NodeID} (hU : ShownQuorum iq U) :
          bitsOf rev U ∈ Qs ∧ ∀ n, n ∈ membersOf rev (bitsOf rev U) ↔ n ∈ U := by
        have hqset : ∀ pk ∈ U, ∃ q, iq.qsetOf pk = some q := fun pk hpk => by
          obtain ⟨q, hq, -⟩ := hU.2 pk hpk
          exact ⟨q, hq⟩
        have hsame : ∀ n, n ∈ membersOf rev (bitsOf rev U) ↔ n ∈ U := fun n => by
          refine mem_membersOf_bitsOf fun n hn => ?_
          obtain ⟨q, hq⟩ := hqset n hn
          exact (h.ready hruns hq).numbered
        refine ⟨hfound.mpr ⟨bitsOf_mem_unions h hruns hU.1 hqset, fun pk hpk => ?_⟩, hsame⟩
        exact (hU.2 pk ((hsame pk).mp hpk)).congr fun n => (hsame n).symm
      obtain ⟨hUQ, hUmem⟩ := hof hU
      obtain ⟨hVQ, hVmem⟩ := hof hV
      obtain ⟨pk, hpkU, hpkV⟩ := (share_iff (hne hUQ) (hbits hUQ)).mp
        (List.all_eq_true.mp (hall _ hUQ) _ hVQ)
      exact ⟨pk, (hUmem pk).mp hpkU, (hVmem pk).mp hpkV⟩
    · intro hshare B hB
      rw [List.all_eq_true]
      intro C hC
      rw [share_iff (hne hB) (hbits hB)]
      exact hshare _ _ ⟨membersOf_ne_nil (hbits hB) (hne hB), (hfound.mp hB).2⟩
        ⟨membersOf_ne_nil (hbits hC) (hne hC), (hfound.mp hC).2⟩

/-- **The check** says whether all quorums whose slices are shown share nodes. -/
theorem checkQuorumIntersection_eq (h : InOrder iq rev nodesWithQsets)
    (hruns : Runs iq rev nodesWithQsets) :
    ∃ b, (b = true ↔ Intersecting (ShownQuorum iq)) ∧ ∃ N, ∀ fuel ≥ N,
      checkQuorumIntersection iq rev nodesWithQsets fuel = some b := by
  obtain ⟨E, hE, n, hn⟩ := candidateEnumerator_eq hruns.few hruns.numbered
  obtain ⟨N, hN⟩ := exists_fuel h hruns
  have hreturns : ∀ fuel ≥ max N n, ∃ b,
      checkQuorumIntersection iq rev nodesWithQsets fuel = some b ∧
        (b = true ↔ Intersecting (ShownQuorum iq)) := fun fuel hfuel =>
    checkQuorumIntersection_of_fuel h hruns (hN fuel ((Nat.le_max_left N n).trans hfuel)) hE
      (Enumerator.visits_mono hn ((Nat.le_max_right N n).trans hfuel))
  obtain ⟨b, -, hb⟩ := hreturns _ le_rfl
  refine ⟨b, hb, max N n, fun fuel hfuel => ?_⟩
  obtain ⟨b', hreturns', hb'⟩ := hreturns fuel hfuel
  rw [hreturns', Bool.eq_iff_iff.mpr (hb'.trans hb.symm)]

/-- **Only what runs returns**: every node is looked at by itself. -/
theorem runs_of_checkQuorumIntersection (h : InOrder iq rev nodesWithQsets) {fuel : ℕ} {b : Bool}
    (hcheck : checkQuorumIntersection iq rev nodesWithQsets fuel = some b) :
    Runs iq rev nodesWithQsets := by
  unfold checkQuorumIntersection at hcheck
  obtain ⟨⟨⟩, hguard, hcheck⟩ := Option.bind_eq_some_iff.mp hcheck
  obtain ⟨candidates, hcandidates, hcheck⟩ := Option.bind_eq_some_iff.mp hcheck
  obtain ⟨E, hE, hvisits⟩ := Option.bind_eq_some_iff.mp hcandidates
  obtain ⟨Qs, hQs, -⟩ := Option.bind_eq_some_iff.mp hcheck
  obtain ⟨hfew, hnumbered⟩ := of_candidateEnumerator hE
  have hnoted : ∀ n ∈ iq.mQsetHashes, iq.mQsets.contains n.2 = true := by
    intro n hn
    by_contra hnot
    rw [guard, if_neg fun hall => hnot (hall n hn).1] at hguard
    cases hguard
  obtain ⟨E', hE', hyields⟩ := candidateEnumerator_eq hfew hnumbered
  obtain rfl := Option.some.inj (hE.symm.trans hE')
  obtain rfl := Enumerator.Yields.unique ⟨fuel, hvisits⟩ hyields
  refine ⟨hnoted, hfew, hnumbered, fun pk q hq => ?_⟩
  obtain ⟨hmem, hnumber⟩ := h.number hq
  have hlt := hnumbered _ hnumber
  have hsingle {j : ℕ} (hj : j < 64) :
      (1#64 <<< rev.idxOf pk : Bits).getLsbD j = true ↔ rev.idxOf pk = j := by
    rw [getLsbD_bit hj, decide_eq_true_iff]
  have hcandidate : 1#64 <<< rev.idxOf pk ∈ unions (nodesWithQsets.map fun k => 1#64 <<< k) := by
    refine (mem_unions hfew hnumbered).mpr ⟨fun hzero => ?_, fun i hi hbit => ?_⟩
    · have hbit := (hsingle hlt).mpr rfl
      rw [hzero, BitVec.getLsbD_zero] at hbit
      cases hbit
    · exact (hsingle hi).mp hbit ▸ hnumber
  obtain ⟨found, hfound⟩ := of_findQuorums hQs _ hcandidate
  obtain ⟨pk', E', hpk', hE'⟩ := built_of_allContained hfound (List.mem_range.mpr hlt)
    ((hsingle hlt).mpr rfl) fun j hj hbit => ((hsingle (List.mem_range.mp hj)).mp hbit).symm
  obtain rfl := Option.some.inj ((List.getElem?_idxOf hmem).symm.trans hpk')
  obtain ⟨S, -, hmake⟩ := Option.bind_eq_some_iff.mp hE'
  obtain ⟨Q, hQ, -⟩ := Option.bind_eq_some_iff.mp hmake
  rw [hq, Option.bind_some] at hQ
  exact buildable_of_makeQsetEnumerator hQ

/-! ## What is noted -/

/-- Every node that has a quorum set has been noted. -/
def Known (iq : InferredQuorum) : Prop := ∀ n ∈ iq.mQsetHashes, n.1 ∈ iq.mPubKeys

namespace Known

variable {hash : SCPQuorumSet → Hash}

theorem notePubKey (h : Known iq) (pk : NodeID) :
    Known (iq.notePubKey pk) ∧ pk ∈ (iq.notePubKey pk).mPubKeys :=
  ⟨fun n hn => Std.ExtTreeMap.mem_insert.mpr (.inr (h n hn)), Std.ExtTreeMap.mem_insert_self⟩

theorem notePubKeys (v : List NodeID) {iq : InferredQuorum} (h : Known iq) :
    Known (v.foldl InferredQuorum.notePubKey iq) := by
  induction v generalizing iq with
  | nil => exact h
  | cons pk v ih => exact ih (h.notePubKey pk).1

theorem noteQsets_of {qs : List SCPQuorumSet}
    (hqs : ∀ q ∈ qs, ∀ iq : InferredQuorum, Known iq → Known (noteQset hash iq q))
    {iq : InferredQuorum} (h : Known iq) : Known (noteQsets hash iq qs) := by
  induction qs generalizing iq with
  | nil => exact h
  | cons q qs ih =>
    obtain ⟨hq, hqs⟩ := List.forall_mem_cons.mp hqs
    exact ih hqs (hq iq h)

theorem noteQset (q : SCPQuorumSet) :
    ∀ iq : InferredQuorum, Known iq → Known (noteQset hash iq q) := by
  induction q using SCPQuorumSet.induct with
  | mk t v i ih =>
    intro iq h
    have hinserted : Known (if iq.mQsets.contains (hash (.mk t v i)) then iq
        else { iq with mQsets := iq.mQsets.insert (hash (.mk t v i)) (.mk t v i) }) := by
      split_ifs <;> exact h
    exact noteQsets_of ih (notePubKeys v hinserted)

theorem noteStatement (h : Known iq) (st : HistoryStatement) : Known (iq.noteStatement st) := by
  obtain ⟨hknown, hself⟩ := h.notePubKey st.nodeID
  unfold InferredQuorum.noteStatement noteQsetHash
  split_ifs
  · exact hknown
  · intro n hn
    rcases List.mem_append.mp hn with hn | hn
    · exact hknown n hn
    · obtain rfl := List.mem_singleton.mp hn
      exact hself

theorem noteSCPHistory (h : Known iq) (hist : SCPHistoryEntry) :
    Known (iq.noteSCPHistory hash hist) := by
  have hstatements : ∀ (messages : List HistoryStatement) (iq : InferredQuorum), Known iq →
      Known (messages.foldl InferredQuorum.noteStatement iq) := by
    intro messages
    induction messages with
    | nil => exact fun _ h => h
    | cons st messages ih => exact fun iq h => ih _ (h.noteStatement st)
  exact hstatements _ _ (noteQsets_of (fun q _ => noteQset q) h)

theorem ofHistory (hists : List SCPHistoryEntry) : Known (ofHistory hash hists) := by
  have hall : ∀ iq : InferredQuorum, Known iq →
      Known (hists.foldl (InferredQuorum.noteSCPHistory hash) iq) := by
    induction hists with
    | nil => exact fun _ h => h
    | cons hist hists ih => exact fun iq h => ih _ (h.noteSCPHistory hist)
  exact hall _ fun _ hn => by cases hn

end Known

/-- All quorum sets that are noted are sane. -/
def AllSane (iq : InferredQuorum) : Prop :=
  ∀ (qsh : Hash) (q : SCPQuorumSet), iq.mQsets[qsh]? = some q → isQuorumSetSane q false = true

theorem inOrder_ofHistory {hash : SCPQuorumSet → Hash} {hists : List SCPHistoryEntry}
    (hsane : AllSane (ofHistory hash hists))
    (h : Iterates (ofHistory hash hists) rev nodesWithQsets) :
    InOrder (ofHistory hash hists) rev nodesWithQsets := by
  refine ⟨h.nodup, h.numbers.2, fun n hn => (h.nodes n.1).mpr (Known.ofHistory hists n hn),
    fun pk q hq => ?_⟩
  obtain ⟨qsh, -, hq⟩ := mem_of_qsetOf hq
  exact (isQuorumSetSane_iff.mp (hsane qsh q hq)).1

/-! ## When the check is exact -/

/-- The check returns, with the right answer. -/
def Exact (iq : InferredQuorum) (rev : List NodeID) (nodesWithQsets : List ℕ) : Prop :=
  ∃ b, (b = true ↔ Intersecting (IsQuorum iq)) ∧ ∃ N, ∀ fuel ≥ N,
    checkQuorumIntersection iq rev nodesWithQsets fuel = some b

/-- If two quorums are disjoint, so are two whose members have slices that are shown. -/
def Revealed (iq : InferredQuorum) : Prop :=
  Intersecting (ShownQuorum iq) → Intersecting (IsQuorum iq)

/-- Quorums that are found are quorums. -/
theorem ShownQuorum.isQuorum (h : InOrder iq rev nodesWithQsets)
    (hruns : Runs iq rev nodesWithQsets) {U : List NodeID} (hU : ShownQuorum iq U) :
    IsQuorum iq U := by
  refine ⟨hU.1, fun pk hpk => ?_⟩
  obtain ⟨q, hq, slice, hslice, hsub⟩ := hU.2 pk hpk
  exact ⟨q, hq, isQuorumSlice_of_shown (h.range pk q hq) (hruns.buildable pk q hq).small
    (List.mem_cons_of_mem _ hslice) hsub⟩

/-- **Main theorem**: the check is exact if and only if nothing stops it, and disjoint quorums are
revealed by the slices that are shown. -/
theorem checkQuorumIntersection_exact_iff (hash : SCPQuorumSet → Hash)
    (hists : List SCPHistoryEntry) (hsane : AllSane (ofHistory hash hists))
    (hiterates : Iterates (ofHistory hash hists) rev nodesWithQsets) :
    Exact (ofHistory hash hists) rev nodesWithQsets ↔
      Runs (ofHistory hash hists) rev nodesWithQsets ∧ Revealed (ofHistory hash hists) := by
  have h := inOrder_ofHistory hsane hiterates
  constructor
  · rintro ⟨b, hb, N, hreturns⟩
    have hruns := runs_of_checkQuorumIntersection h (hreturns N le_rfl)
    obtain ⟨b', hb', M, hreturns'⟩ := checkQuorumIntersection_eq h hruns
    have heq := (hreturns _ (Nat.le_max_left N M)).symm.trans (hreturns' _ (Nat.le_max_right N M))
    obtain rfl := Option.some.inj heq
    exact ⟨hruns, fun hshown => hb.mp (hb'.mpr hshown)⟩
  · rintro ⟨hruns, hrevealed⟩
    obtain ⟨b, hb, hreturns⟩ := checkQuorumIntersection_eq h hruns
    refine ⟨b, hb.trans ⟨hrevealed, fun hall U V hU hV => ?_⟩, hreturns⟩
    exact hall U V (hU.isQuorum h hruns) (hV.isQuorum h hruns)

/-! ## Time -/

theorem containsSlice_mono {B : Bits} {E : BitsetEnumerator} {s : E.State} {fuel fuel' : ℕ}
    {b : Bool} (h : containsSlice B E fuel s = some b) (hle : fuel ≤ fuel') :
    containsSlice B E fuel' s = some b := by
  induction fuel generalizing s fuel' with
  | zero =>
    unfold containsSlice at h
    split_ifs at h with hbool
    cases fuel' <;> simp [containsSlice, hbool, Option.some.inj h]
  | succ fuel ih =>
    obtain ⟨fuel', rfl⟩ : ∃ k, fuel' = k + 1 := ⟨fuel' - 1, by omega⟩
    unfold containsSlice at h ⊢
    split_ifs at h ⊢ with hbool hcovers
    · exact h
    · exact ih h (by omega)
    · exact h

theorem allContained_mono {B : Bits} {is : List ℕ} {fuel fuel' : ℕ} {b : Bool}
    (h : allContained iq rev fuel B is = some b) (hle : fuel ≤ fuel') :
    allContained iq rev fuel' B is = some b := by
  induction is with
  | nil => exact h
  | cons i is ih =>
    rw [allContained] at h ⊢
    split_ifs at h ⊢ with hbit
    · obtain ⟨found, hfound, h⟩ := Option.bind_eq_some_iff.mp h
      obtain ⟨E, hE, hfound⟩ := Option.bind_eq_some_iff.mp hfound
      rw [hE, Option.bind_some, containsSlice_mono hfound hle]
      cases found with
      | true => exact ih h
      | false => exact h
    · exact ih h

theorem findQuorums_mono {Bs Qs : List Bits} {fuel fuel' : ℕ}
    (h : findQuorums iq rev fuel Bs = some Qs) (hle : fuel ≤ fuel') :
    findQuorums iq rev fuel' Bs = some Qs := by
  induction Bs generalizing Qs with
  | nil => exact h
  | cons B Bs ih =>
    obtain ⟨found, hfound, h⟩ := Option.bind_eq_some_iff.mp h
    obtain ⟨Qs', hQs', h⟩ := Option.bind_eq_some_iff.mp h
    have hfound' : isQuorum iq rev fuel' B = some found := allContained_mono hfound hle
    rw [findQuorums, hfound', ih hQs']
    exact h

/-- Time makes no difference for the answer. -/
theorem checkQuorumIntersection_mono {fuel fuel' : ℕ} {b : Bool}
    (h : checkQuorumIntersection iq rev nodesWithQsets fuel = some b) (hle : fuel ≤ fuel') :
    checkQuorumIntersection iq rev nodesWithQsets fuel' = some b := by
  unfold checkQuorumIntersection at h ⊢
  obtain ⟨⟨⟩, hguard, h⟩ := Option.bind_eq_some_iff.mp h
  obtain ⟨candidates, hcandidates, h⟩ := Option.bind_eq_some_iff.mp h
  obtain ⟨E, hE, hvisits⟩ := Option.bind_eq_some_iff.mp hcandidates
  obtain ⟨Qs, hQs, h⟩ := Option.bind_eq_some_iff.mp h
  rw [hguard, hE, Option.bind_some, Enumerator.visits_mono hvisits hle]
  have hQs' := findQuorums_mono hQs hle
  simp [hQs'] at h ⊢
  exact h

/-! ## Runs -/

/-- Node 1 needs one of 2 and 3, and one of 4 and 5. The nodes 2 and 5 need 1, and 3 and 4 need each
other. -/
def needsBoth : SCPQuorumSet := .mk 3 [1] [.mk 1 [2, 3] [], .mk 1 [4, 5] []]

/-- A hash for the example: the digits of the quorum set. -/
def digits (q : SCPQuorumSet) : Hash := q.forAllNodesInternal.foldl (10 * · + ·) q.threshold.val

def split : SCPHistoryEntry where
  quorumSets := [needsBoth, .mk 1 [1] [], .mk 1 [3] [], .mk 1 [4] []]
  messages := [.nominate 1 (digits needsBoth), .nominate 2 (digits (.mk 1 [1] [])),
    .nominate 3 (digits (.mk 1 [4] [])), .nominate 4 (digits (.mk 1 [3] [])),
    .nominate 5 (digits (.mk 1 [1] []))]

theorem allSane_split : AllSane (ofHistory digits [split]) := by
  have hall : ((ofHistory digits [split]).mQsets.toList.all fun p =>
      isQuorumSetSane p.2 false) = true := by decide +kernel
  intro qsh q hq
  exact List.all_eq_true.mp hall _ (Std.ExtTreeMap.mem_toList_iff_getElem?_eq_some.mpr hq)

theorem iterates_split : Iterates (ofHistory digits [split]) [1, 2, 3, 4, 5] [0, 1, 2, 3, 4] := by
  have hkeys : (ofHistory digits [split]).mPubKeys.keys = [1, 2, 3, 4, 5] := by decide +kernel
  have hhashes : ((ofHistory digits [split]).mQsetHashes.map fun n =>
      nodeNumber [1, 2, 3, 4, 5] n.1) = [some 0, some 1, some 2, some 3, some 4] := by
    decide +kernel
  refine ⟨by decide, fun pk => ?_, by decide, fun i => ?_⟩
  · rw [← hkeys, Std.ExtTreeMap.mem_keys]
  · have hmem : (∃ n ∈ (ofHistory digits [split]).mQsetHashes,
        nodeNumber [1, 2, 3, 4, 5] n.1 = some i) ↔
        some i ∈ [some 0, some 1, some 2, some 3, some 4] := by
      rw [← hhashes, List.mem_map]
    rw [hmem]
    simp

theorem checkQuorumIntersection_exact_iff_split :
    Exact (ofHistory digits [split]) [1, 2, 3, 4, 5] [0, 1, 2, 3, 4] ↔
      Runs (ofHistory digits [split]) [1, 2, 3, 4, 5] [0, 1, 2, 3, 4] ∧
        Revealed (ofHistory digits [split]) :=
  checkQuorumIntersection_exact_iff digits [split] allSane_split iterates_split

/-- The quorums of 1, 2, 5 and of 3, 4 are disjoint, but the slice of 2 and 5 is not shown: the
network seems to be safe. -/
theorem split_seems_safe :
    AllSane (ofHistory digits [split]) ∧
      Iterates (ofHistory digits [split]) [1, 2, 3, 4, 5] [0, 1, 2, 3, 4] ∧
      checkQuorumIntersection (ofHistory digits [split]) [1, 2, 3, 4, 5] [0, 1, 2, 3, 4] 40 =
        some true ∧
      IsQuorum (ofHistory digits [split]) [1, 2, 5] ∧ IsQuorum (ofHistory digits [split]) [3, 4] ∧
        ¬ Exact (ofHistory digits [split]) [1, 2, 3, 4, 5] [0, 1, 2, 3, 4] := by
  have hcheck : checkQuorumIntersection (ofHistory digits [split]) [1, 2, 3, 4, 5] [0, 1, 2, 3, 4]
      40 = some true := by decide +kernel
  have hquorum : ([[1, 2, 5], [3, 4]].all fun U => U.all fun pk =>
      ((ofHistory digits [split]).qsetOf pk).any (isQuorumSlice · U)) = true := by decide +kernel
  have hof {U : List NodeID} (hU : U ∈ [[1, 2, 5], [3, 4]]) (hne : U ≠ []) :
      IsQuorum (ofHistory digits [split]) U := by
    refine ⟨hne, fun pk hpk => ?_⟩
    have hslice := List.all_eq_true.mp (List.all_eq_true.mp hquorum U hU) pk hpk
    exact (Option.any_eq_true _ _).mp hslice
  refine ⟨allSane_split, iterates_split, hcheck, hof (by decide) (by decide),
    hof (by decide) (by decide), ?_⟩
  rintro ⟨b, hb, N, hreturns⟩
  have htrue := hreturns (max N 40) (Nat.le_max_left N 40)
  rw [checkQuorumIntersection_mono hcheck (Nat.le_max_right N 40)] at htrue
  obtain ⟨pk, hpk, hpk'⟩ := hb.mp (Option.some.inj htrue).symm _ _
    (hof (U := [1, 2, 5]) (by decide) (by decide)) (hof (U := [3, 4]) (by decide) (by decide))
  have hdisjoint : ∀ pk ∈ ([1, 2, 5] : List NodeID), pk ∉ ([3, 4] : List NodeID) := by decide
  exact hdisjoint pk hpk hpk'

end InferredQuorum

end SmartCore.History
