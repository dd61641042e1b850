import Mathlib.Data.Finset.Basic
import SmartCore.Lib.Quorum
import SmartCore.SCP.Monotone

/-!
# Agreement

A system of nodes works on one slot. The well-behaved ones run the ballot protocol; the others send
whatever they like, and different things to different nodes. An envelope under the name of a
well-behaved node is one that this node has made.

No two well-behaved nodes externalize different values, provided that quorums intersect in
well-behaved nodes whatever slices the others claim (`System.externalized_agree`). It is not enough that the
quorums of the whole system, in which the ill-behaved nodes are held to their quorum sets,
intersect: an `EXTERNALIZE` statement counts with the quorum set that has its sender only
(`externalize_splits`).
-/

namespace SmartCore.SCP

variable {node : Node} {V : Value → Prop} {F inner : Prop} {R : SCPEnvelope → Prop} {s t : Slot}

/-! ## Where recorded statements come from -/

theorem Phase.eq_externalize_of_le {p : Phase} (h : Phase.EXTERNALIZE.toNat ≤ p.toNat) :
    p = .EXTERNALIZE := by
  cases p <;> simp_all [Phase.toNat]

theorem Phase.ne_prepare_of_le {p q : Phase} (h : p.toNat ≤ q.toNat) (hp : p ≠ .PREPARE) :
    q ≠ .PREPARE := by
  cases p <;> cases q <;> simp_all [Phase.toNat]

/-- An envelope that was received, or that the node has made itself. -/
def Heard (R : SCPEnvelope → Prop) (s : Slot) (env : SCPEnvelope) : Prop :=
  R env ∨ ∃ bp, Event.emitCurrentStateStatement bp env ∈ s.log

/-- The quorum that confirmed a commit of the value `x`. -/
structure Node.CommitQuorum (node : Node) (R : SCPEnvelope → Prop) (s : Slot) (x : Value)
    (U : List NodeID) : Prop where
  slice : isQuorumSlice node.qSet U = true
  member : ∀ n ∈ U, ∃ env q, env.statement.nodeID = n ∧ Heard R s env ∧
    (∃ ballot check, ballot.value = x ∧ commitPredicate ballot check env.statement = true) ∧
    node.getQuorumSetFromStatement env.statement = some q ∧ isQuorumSlice q U = true

/-- What the statements of the node say stays true, and it externalizes with a quorum. -/
structure Node.CommittedAt (node : Node) (R : SCPEnvelope → Prop) (s : Slot) : Prop where
  statement : ∀ bp env, Event.emitCurrentStateStatement bp env ∈ s.log →
    bp.ballots.Ok ∧ ∃ pledges, node.pledgesOf bp.ballots = some pledges ∧
      env = node.createEnvelope pledges
  phase : ∀ bp env, Event.emitCurrentStateStatement bp env ∈ s.log →
    bp.mPhase.toNat ≤ s.mPhase.toNat
  locked : ∀ bp env, Event.emitCurrentStateStatement bp env ∈ s.log → bp.mPhase ≠ .PREPARE →
    s.mCommit.map SCPBallot.value = bp.mCommit.map SCPBallot.value
  quorum : s.mPhase = .EXTERNALIZE → ∃ c U, s.mCommit = some c ∧
    node.CommitQuorum R s c.value U

/-- The same for a slot at rest, where also the recorded envelopes are accounted for. -/
structure Node.Committed (node : Node) (R : SCPEnvelope → Prop) (s : Slot) : Prop extends
    node.CommittedAt R s where
  recorded : ∀ (n : NodeID) (env : SCPEnvelope), s.mLatestEnvelopes[n]? = some env →
    env.statement.nodeID = n ∧ Heard R s env

theorem committed_freshSlot : node.Committed R (freshSlot node) := by
  refine ⟨?_, by simp [freshSlot]⟩
  constructor <;> simp [freshSlot]

theorem Heard.of_subset {env : SCPEnvelope} (h : Heard R s env) (hsub : s.log ⊆ t.log) :
    Heard R t env := by
  rcases h with h | ⟨bp, h⟩
  · exact Or.inl h
  · exact Or.inr ⟨bp, hsub h⟩

theorem Node.CommitQuorum.of_subset {x : Value} {U : List NodeID}
    (h : node.CommitQuorum R s x U) (hsub : s.log ⊆ t.log) : node.CommitQuorum R t x U := by
  refine ⟨h.slice, fun n hn => ?_⟩
  obtain ⟨env, q, hid, hheard, hrest⟩ := h.member n hn
  exact ⟨env, q, hid, hheard.of_subset hsub, hrest⟩

/-- A slot that keeps its phase and commit, and makes no statement. -/
theorem Node.CommittedAt.of_same (h : node.CommittedAt R s) (hphase : t.mPhase = s.mPhase)
    (hcommit : t.mCommit = s.mCommit) (hsub : s.log ⊆ t.log)
    (hlog : ∀ bp env, Event.emitCurrentStateStatement bp env ∈ t.log →
      Event.emitCurrentStateStatement bp env ∈ s.log) : node.CommittedAt R t where
  statement bp env hmem := h.statement bp env (hlog bp env hmem)
  phase bp env hmem := by rw [hphase]; exact h.phase bp env (hlog bp env hmem)
  locked bp env hmem := by rw [hcommit]; exact h.locked bp env (hlog bp env hmem)
  quorum he := by
    obtain ⟨c, U, hc, hU⟩ := h.quorum (hphase ▸ he)
    exact ⟨c, U, hcommit.trans hc, hU.of_subset hsub⟩

/-- Only confirming a commit enters `EXTERNALIZE`. -/
theorem Guard.externalizes {ch : Change} (hg : Guard node V F s ch)
    (h : (ch.apply s.ballots).phase = .EXTERNALIZE) : ∃ c h, ch = .confirmCommit c h := by
  cases ch with
  | acceptPrepared ballot => exact absurd h hg.phase_ne
  | confirmPrepared newC newH => exact absurd h hg.phase_ne
  | acceptCommit c h' =>
    by_cases hphase : s.mPhase = .PREPARE
    · simp [Change.apply, hphase] at h
    · rw [Change.apply_acceptCommit_confirm hphase] at h
      exact absurd h hg.phase_ne
  | confirmCommit c h' => exact ⟨c, h', rfl⟩
  | bump newb => exact absurd h hg.phase_ne

/-- After a change the node's earlier statements are still true, and so is the one it makes of
its new ballots. It has a quorum if it externalizes. -/
theorem Guard.committed {ch : Change} (hg : Guard node V F s ch) (hok : s.ballots.Ok)
    (h : node.Committed R s) (hb : t.ballots = ch.apply s.ballots) (hsub : s.log ⊆ t.log)
    (hlog : ∀ bp env, Event.emitCurrentStateStatement bp env ∈ t.log →
      Event.emitCurrentStateStatement bp env ∈ s.log ∨ bp.ballots = t.ballots ∧ t.ballots.Ok ∧
        ∃ pledges, node.pledgesOf t.ballots = some pledges ∧ env = node.createEnvelope pledges) :
    node.CommittedAt R t := by
  have hadv := hg.advance hok
  rw [← hb] at hadv
  refine ⟨fun bp env hmem => ?_, fun bp env hmem => ?_, fun bp env hmem hne => ?_, fun he => ?_⟩
  · rcases hlog bp env hmem with hmem | ⟨hbp, hok', hpl⟩
    · exact h.statement bp env hmem
    · rw [hbp]
      exact ⟨hok', hpl⟩
  · rcases hlog bp env hmem with hmem | ⟨hbp, -⟩
    · exact (h.phase bp env hmem).trans hadv.phase
    · rw [← ballots_phase bp, hbp]
      exact le_rfl
  · rcases hlog bp env hmem with hmem | ⟨hbp, -⟩
    · have hphase := Phase.ne_prepare_of_le (h.phase bp env hmem) hne
      exact (hadv.locked hphase).1.trans (h.locked bp env hmem hne)
    · rw [← ballots_c bp, hbp]
      rfl
  · obtain ⟨c, h', rfl⟩ := hg.externalizes (by rw [← hb]; exact he)
    obtain ⟨-, -, -, -, -, ballot, check, hv, hrat⟩ := hg
    obtain ⟨U, hU, hs⟩ := isQuorum_iff.mp hrat
    refine ⟨c, U, by rw [← ballots_c, hb]; rfl, hs, fun n hn => ?_⟩
    obtain ⟨env, q, henv, hp, hq, hsl⟩ := hU n hn
    obtain ⟨hid, hheard⟩ := h.recorded n env henv
    exact ⟨env, q, hid, hheard.of_subset hsub, ⟨ballot, check, hv, hp⟩, hq, hsl⟩

/-- The statements in the log after an emission. -/
theorem EmitLog.statements {pledges : Pledges} (hlog : EmitLog s t (node.createEnvelope pledges))
    (hok : t.ballots.Ok) (hpl : node.pledgesOf t.ballots = some pledges) (bp : BallotProtocol)
    (env : SCPEnvelope) (hmem : Event.emitCurrentStateStatement bp env ∈ t.log) :
    Event.emitCurrentStateStatement bp env ∈ s.log ∨ bp.ballots = t.ballots ∧ t.ballots.Ok ∧
      ∃ pledges, node.pledgesOf t.ballots = some pledges ∧ env = node.createEnvelope pledges := by
  rcases (hlog.mem (by simp [Event.Quiet])).mp hmem with hmem | ⟨bp', hbp, -, heq, -⟩
  · exact Or.inl hmem
  · obtain ⟨rfl, rfl⟩ := Event.emitCurrentStateStatement.inj heq
    exact Or.inr ⟨hbp, hok, pledges, hpl, rfl⟩

theorem Step.committed (hst : Step node V F R inner s t) (hs : Sound s)
    (h : node.Committed R s) : node.Committed R t := by
  have hsub := hst.log_subset
  have hrec (henvs : t.mLatestEnvelopes = s.mLatestEnvelopes) (n : NodeID) (env : SCPEnvelope)
      (henv : t.mLatestEnvelopes[n]? = some env) : env.statement.nodeID = n ∧ Heard R t env := by
    rw [henvs] at henv
    exact ⟨(h.recorded n env henv).1, (h.recorded n env henv).2.of_subset hsub⟩
  cases hst with
  | quiet hq =>
    exact ⟨h.toCommittedAt.of_same (by rw [← ballots_phase, hq.ballots]; rfl)
      (by rw [← ballots_c, hq.ballots]; rfl) hsub
      fun _ _ => (hq.log.mem (by simp [Event.Quiet])).mp, hrec hq.envelopes⟩
  | probe hint =>
    exact ⟨h.toCommittedAt.of_same rfl rfl hsub fun _ _ hmem => by simpa using hmem, hrec rfl⟩
  | publish ch env hbump hg hp =>
    obtain ⟨pledges, hpl, rfl⟩ := hp.statement
    refine ⟨hg.committed hs.now h hp.ballots hsub (hp.log.statements hp.ok hpl),
      fun n env henv => ?_⟩
    rw [hp.envelopes] at henv
    by_cases hn : node.nodeID = n
    · subst hn
      rw [getElem?_insert_self] at henv
      obtain rfl := Option.some.inj henv
      obtain ⟨u, v, bp, -, hl, hq, -⟩ := hp.log
      exact ⟨rfl, Or.inr ⟨bp, hq.isPrefix.subset (by simp [hl])⟩⟩
    · rw [getElem?_insert_ne hn] at henv
      exact ⟨(h.recorded n env henv).1, (h.recorded n env henv).2.of_subset hsub⟩
  | remember env hn => exact ⟨h.toCommittedAt.of_same rfl rfl hsub fun _ _ hmem => hmem, hrec rfl⟩
  | send env hlast hemit =>
    exact ⟨h.toCommittedAt.of_same rfl rfl hsub fun _ _ hmem => by simpa using hmem, hrec rfl⟩
  | externalize v hphase hcommit hnone =>
    exact ⟨h.toCommittedAt.of_same rfl rfl hsub fun _ _ hmem => by simpa using hmem, hrec rfl⟩
  | receive env hin hr =>
    refine ⟨h.toCommittedAt.of_same (by rw [← ballots_phase, hr.ballots]; rfl)
      (by rw [← ballots_c, hr.ballots]; rfl) hsub
      fun _ _ => (hr.quiet.mem (by simp [Event.Quiet])).mp, ?_⟩
    intro n env' henv
    rw [hr.envelopes] at henv
    by_cases hn : env.statement.nodeID = n
    · subst hn
      rw [getElem?_insert_self] at henv
      obtain rfl := Option.some.inj henv
      exact ⟨rfl, Or.inl hr.known⟩
    · rw [getElem?_insert_ne hn] at henv
      exact ⟨(h.recorded n env' henv).1, (h.recorded n env' henv).2.of_subset hsub⟩

theorem Path.committed (h : Path node V F R inner s t) (hs : Sound s ∧ node.Committed R s) :
    Sound t ∧ node.Committed R t :=
  h.invariant (P := fun s => Sound s ∧ node.Committed R s)
    (fun _ _ hst hs => ⟨hst.sound hs.1, hst.committed hs.1 hs.2⟩) hs

theorem Crash.committed {e : Fault} (hc : Crash node V F s e t) (hs : Sound s)
    (h : node.Committed R s) : node.CommittedAt R t := by
  have hsub := hc.log_subset
  cases hc with
  | publish ch hg hp =>
    refine hg.committed hs.now h hp.ballots hsub ?_
    rcases hp.log with hq | ⟨hok, pledges, hpl, hlog⟩
    · exact fun bp env hmem => Or.inl ((hq.mem (by simp [Event.Quiet])).mp hmem)
    · exact hlog.statements hok hpl
  | rest hphase hcommit hlog hbad hnull hinv =>
    exact h.toCommittedAt.of_same hphase hcommit hsub
      fun _ _ => (hlog.mem (by simp [Event.Quiet])).mp

/-- Every run of a node that receives only envelopes of `R`. -/
theorem run_committed (node : Node) (inputs : List Input)
    (hin : ∀ env, .envelope env ∈ inputs → R env) :
    node.CommittedAt R (node.slotAfter inputs) := by
  have hstart : Sound (freshSlot node) ∧ node.Committed R (freshSlot node) :=
    ⟨sound_freshSlot, committed_freshSlot⟩
  have hok : ∀ pre i post s, inputs = pre ++ i :: post → node.run pre = .ok () s →
      Path node (fun _ => True) False R False (freshSlot node) s →
      InputOk node (fun _ => True) False R s i := by
    intro pre i post s heq _ _
    cases i with
    | envelope env => exact ⟨hin env (by simp [heq]), fun h => h.elim⟩
    | _ => trivial
  rcases run_spec inputs hok with ⟨-, hpath⟩ | ⟨e, -, u, hpath, hcrash⟩
  · exact (hpath.committed hstart).2.toCommittedAt
  · obtain ⟨hs, h⟩ := hpath.committed hstart
    exact hcrash.committed hs h

/-- More inputs only add to the log. -/
theorem slotAfter_log_subset (node : Node) (pre post : List Input) :
    (node.slotAfter pre).log ⊆ (node.slotAfter (pre ++ post)).log := by
  induction post using List.reverseRecOn with
  | nil => simp
  | append_singleton post i ih =>
    refine List.Subset.trans ih ?_
    rw [← List.append_assoc]
    generalize hpre : pre ++ post = l
    have happend : node.run (l ++ [i]) = (runInputs node.step l >>= fun _ => node.step i)
        (freshSlot node) := runInputs_append l i (freshSlot node)
    cases hrun : node.run l with
    | error e s =>
      have : node.run (l ++ [i]) = .error e s := by
        rw [happend]
        simp only [bind, EStateM.bind]
        rw [show runInputs node.step l (freshSlot node) = .error e s from hrun]
      simp [Node.slotAfter, hrun, this]
    | ok _ s =>
      have hrun' : node.run (l ++ [i]) = node.step i s := by
        rw [happend]
        simp only [bind, EStateM.bind]
        rw [show runInputs node.step l (freshSlot node) = .ok () s from hrun]
      have hrest : Rest node (fun _ => True) False s := by
        rcases run_spec_any node l with ⟨-, hpath⟩ | ⟨e, he, -⟩
        · simp only [Node.slotAfter, hrun] at hpath
          exact hpath.rest rest_freshSlot
        · simp [Node.faultAfter, hrun] at he
      have hstep := step_spec (R := fun _ => True) hrest (i := i) (by cases i <;> simp [InputOk])
      have hsub : ∀ t, Path node (fun _ => True) False (fun _ => True) False s t →
          s.log ⊆ t.log := fun t h =>
        h.invariant (P := fun t => s.log ⊆ t.log)
          (fun _ _ hst hs => List.Subset.trans hs hst.log_subset) (List.Subset.refl _)
      unfold wp at hstep
      simp only [Node.slotAfter, hrun, hrun']
      cases hi : node.step i s with
      | ok _ t =>
        rw [hi] at hstep
        exact hsub t hstep.1
      | error e t =>
        rw [hi] at hstep
        obtain ⟨u, hpath, hcrash⟩ := hstep
        exact List.Subset.trans (hsub u hpath) hcrash.log_subset

/-! ## The system -/

/-- A finite set of nodes, each with a fixed sane quorum set. The nodes of `W` are well-behaved:
they run the protocol on one slot, and know each other's quorum sets by their hashes. -/
structure System where
  nodes : Finset NodeID
  W : Finset NodeID
  W_subset : W ⊆ nodes
  qSet : NodeID → SCPQuorumSet
  sane : ∀ n ∈ nodes, isQuorumSetSane (qSet n) false = true
  slotIndex : ℕ
  node : NodeID → Node
  node_nodeID : ∀ w ∈ W, (node w).nodeID = w
  node_qSet : ∀ w ∈ W, (node w).qSet = qSet w
  node_slotIndex : ∀ w ∈ W, (node w).slotIndex = slotIndex
  resolve : ∀ w ∈ W, ∀ n ∈ W, ∀ q, (node w).getQSet (node n).qSetHash = some q → q = qSet n

/-- What happens, in order, at which node. -/
abbrev Schedule := List (NodeID × Input)

/-- What happens at the node `w`. -/
def inputsOf (w : NodeID) (sched : Schedule) : List Input :=
  sched.filterMap fun e => if e.1 = w then some e.2 else none

namespace System

variable (sys : System)

/-- The slot of node `w` after the schedule. -/
def slot (sched : Schedule) (w : NodeID) : Slot :=
  (sys.node w).slotAfter (inputsOf w sched)

/-- Envelopes come from nodes of the system, and those of well-behaved nodes were made by them
before they arrive. Nothing else is asked: envelopes may be lost, repeated and reordered, and
ill-behaved nodes may send anything to anybody. -/
def Delivers (sched : Schedule) : Prop :=
  ∀ pre w env post, sched = pre ++ (w, .envelope env) :: post →
    env.statement.nodeID ∈ sys.nodes ∧ (env.statement.nodeID ∈ sys.W →
      ∃ bp, Event.emitCurrentStateStatement bp env ∈ (sys.slot pre env.statement.nodeID).log)

/-- The slices of the system's quorum sets. -/
def slices : SliceSystem NodeID where
  slice n U := ∃ l : List NodeID, (∀ m ∈ l, m ∈ U) ∧ isQuorumSlice (sys.qSet n) l = true
  slice_mono := by
    rintro n U U' hsub ⟨l, hl, hs⟩
    exact ⟨l, fun m hm => hsub (hl m hm), hs⟩

/-- Quorums intersect in well-behaved nodes, where a quorum needs a slice of every member. -/
def QuorumIntersection : Prop :=
  ∀ U U' : Set NodeID, U ⊆ sys.nodes → U' ⊆ sys.nodes →
    (∀ n ∈ U, sys.slices.slice n U) → (∀ n ∈ U', sys.slices.slice n U') →
    (U ∩ sys.W).Nonempty → (U' ∩ sys.W).Nonempty → (U ∩ U' ∩ sys.W).Nonempty

/-- The same, where a quorum needs a slice of its well-behaved members only. -/
def QuorumIntersectionDespite : Prop :=
  sys.slices.Intersects sys.nodes sys.W

/-- The node has accepted to commit the value. -/
def Accepts (sched : Schedule) (w : NodeID) (x : Value) : Prop :=
  (sys.slot sched w).mPhase ≠ .PREPARE ∧
    (sys.slot sched w).mCommit.map SCPBallot.value = some x

/-- The node has externalized the value. -/
def Externalizes (sched : Schedule) (w : NodeID) (x : Value) : Prop :=
  (sys.slot sched w).mPhase = .EXTERNALIZE ∧
    (sys.slot sched w).mCommit.map SCPBallot.value = some x

variable {sys} {sched : Schedule}

theorem slot_log_subset (pre post : Schedule) (n : NodeID) :
    (sys.slot pre n).log ⊆ (sys.slot (pre ++ post) n).log := by
  unfold slot
  rw [inputsOf, inputsOf, List.filterMap_append]
  exact slotAfter_log_subset _ _ _

/-- What a node of the system can receive. -/
def Authentic (sys : System) (sched : Schedule) (env : SCPEnvelope) : Prop :=
  env.statement.nodeID ∈ sys.nodes ∧ (env.statement.nodeID ∈ sys.W →
    ∃ bp, Event.emitCurrentStateStatement bp env ∈ (sys.slot sched env.statement.nodeID).log)

theorem Delivers.authentic (hd : sys.Delivers sched) {w : NodeID} {env : SCPEnvelope}
    (hmem : .envelope env ∈ inputsOf w sched) : sys.Authentic sched env := by
  simp only [inputsOf, List.mem_filterMap, Option.ite_none_right_eq_some, Option.some.injEq] at hmem
  obtain ⟨⟨w', i⟩, hmem, rfl, rfl⟩ := hmem
  obtain ⟨pre, post, heq⟩ := List.append_of_mem hmem
  obtain ⟨hnode, hsigned⟩ := hd pre w' env post heq
  refine ⟨hnode, fun hW => ?_⟩
  obtain ⟨bp, hbp⟩ := hsigned hW
  refine ⟨bp, ?_⟩
  rw [heq]
  exact slot_log_subset pre _ _ hbp

theorem Delivers.committedAt (hd : sys.Delivers sched) (w : NodeID) :
    (sys.node w).CommittedAt (sys.Authentic sched) (sys.slot sched w) :=
  run_committed _ _ fun _ hmem => hd.authentic hmem

/-- An envelope that a well-behaved node counts is one its sender has made, if the sender is
well-behaved too. -/
theorem Delivers.signed (hd : sys.Delivers sched) {w : NodeID} (hw : w ∈ sys.W)
    {env : SCPEnvelope} (hheard : Heard (sys.Authentic sched) (sys.slot sched w) env) :
    sys.Authentic sched env := by
  rcases hheard with h | ⟨bp, hbp⟩
  · exact h
  · obtain ⟨-, pledges, -, rfl⟩ := (hd.committedAt w).statement bp env hbp
    have hid : ((sys.node w).createEnvelope pledges).statement.nodeID = w := sys.node_nodeID w hw
    rw [Authentic, hid]
    exact ⟨sys.W_subset hw, fun _ => ⟨bp, hbp⟩⟩

end System

/-- A statement of the node that counts for a commit says what its ballots are. -/
theorem commitPredicate_own {x : Ballots} {pledges : Pledges} {ballot : SCPBallot}
    {check : Interval} (hpl : node.pledgesOf x = some pledges) (hok : x.Ok)
    (h : commitPredicate ballot check (node.createEnvelope pledges).statement = true) :
    x.c.map SCPBallot.value = some ballot.value ∧
      (x.phase = .EXTERNALIZE ∨ x.phase = .CONFIRM ∧ ∃ c, pledges = .confirm c ∧
        c.quorumSetHash = node.qSetHash) := by
  unfold Node.pledgesOf at hpl
  cases hphase : x.phase <;> simp only [hphase] at hpl
  · obtain rfl := Option.some.inj hpl
    cases h
  · split at hpl
    · rename_i c h' b p hc hh hb hp
      obtain rfl := Option.some.inj hpl
      obtain ⟨h₁, b₁, hh₁, hb₁, ⟨-, hv⟩, -, hv'⟩ := hok.commit c hc
      obtain rfl : h' = h₁ := Option.some.inj (hh.symm.trans hh₁)
      obtain rfl : b = b₁ := Option.some.inj (hb.symm.trans hb₁)
      simp only [commitPredicate, Node.createEnvelope, Bool.and_eq_true,
        areBallotsCompatible_iff] at h
      exact ⟨by rw [hc, Option.map_some, hv, hv', h.1], Or.inr ⟨rfl, _, rfl, rfl⟩⟩
    · cases hpl
  · split at hpl
    · rename_i c h' hc hh
      obtain rfl := Option.some.inj hpl
      simp only [commitPredicate, Node.createEnvelope, Bool.and_eq_true,
        areBallotsCompatible_iff] at h
      exact ⟨by rw [hc, Option.map_some, h.1], Or.inl rfl⟩
    · cases hpl

namespace System

variable {sys : System} {sched : Schedule}

/-- Externalizing comes with a certificate. -/
theorem Delivers.certificate (hd : sys.Delivers sched) {w : NodeID} (hw : w ∈ sys.W) {x : Value}
    (hx : sys.Externalizes sched w x) :
    ∃ U, sys.slices.Certificate sys.nodes sys.W (sys.Accepts sched) (sys.Externalizes sched)
      w x U := by
  obtain ⟨c, U, hc, hU⟩ := (hd.committedAt w).quorum hx.1
  obtain rfl : c.value = x := by simpa [hc] using hx.2
  -- what the statement of a well-behaved member says of it
  have hmember : ∀ n ∈ U, n ∈ sys.W → sys.Accepts sched n c.value ∧
      (sys.slices.slice n { m | m ∈ U } ∨ sys.Externalizes sched n c.value) := by
    intro n hn hnW
    obtain ⟨env, q, rfl, hheard, ⟨ballot, check, hv, hpred⟩, hq, hslice⟩ := hU.member n hn
    obtain ⟨bp, hbp⟩ := (hd.signed hw hheard).2 hnW
    have hcom := hd.committedAt env.statement.nodeID
    obtain ⟨hok, pledges, hpl, henv⟩ := hcom.statement bp env hbp
    have hphase := hcom.phase bp env hbp
    rw [henv] at hpred
    obtain ⟨hval, hcase⟩ := commitPredicate_own hpl hok hpred
    have hlocked (hne : bp.mPhase ≠ .PREPARE) :
        (sys.slot sched env.statement.nodeID).mCommit.map SCPBallot.value = some c.value := by
      rw [hcom.locked bp env hbp hne, ← hv]
      exact hval
    rcases hcase with he | ⟨hcf, cf, rfl, hhash⟩
    · have he' : bp.mPhase = .EXTERNALIZE := he
      rw [he'] at hphase
      have hph := Phase.eq_externalize_of_le hphase
      have hl := hlocked (by simp [he'])
      exact ⟨⟨by simp [hph], hl⟩, Or.inr ⟨hph, hl⟩⟩
    · have hcf' : bp.mPhase = .CONFIRM := hcf
      have hne : bp.mPhase ≠ .PREPARE := by simp [hcf']
      refine ⟨⟨Phase.ne_prepare_of_le hphase hne, hlocked hne⟩, Or.inl ⟨U, fun m hm => hm, ?_⟩⟩
      · -- a `CONFIRM` counts with its sender's own quorum set
        have hqs : (sys.node w).getQSet (sys.node env.statement.nodeID).qSetHash = some q := by
          rw [← hhash]
          rw [henv] at hq
          exact hq
        rw [← sys.resolve w hw _ hnW q hqs]
        exact hslice
  refine ⟨{ m | m ∈ U }, fun n hn => ?_, ⟨U, fun m hm => hm, ?_⟩, fun n hn hnW => ?_,
    fun n hn hnW => ?_⟩
  · obtain ⟨env, q, rfl, hheard, -⟩ := hU.member n hn
    exact (hd.signed hw hheard).1
  · rw [← sys.node_qSet w hw]
    exact hU.slice
  · exact (hmember n hn hnW).1
  · exact (hmember n hn hnW).2

theorem Delivers.certified (hd : sys.Delivers sched) :
    sys.slices.Certified sys.nodes sys.W (sys.Accepts sched) (sys.Externalizes sched) where
  subset := by exact_mod_cast sys.W_subset
  unique n _ x y hx hy := Option.some.inj (hx.2.symm.trans hy.2)
  accepted n _ x hx := ⟨by simp [hx.1], hx.2⟩
  certificate n hn x hx := hd.certificate hn hx

/-- **Agreement.** If quorums intersect in well-behaved nodes, whatever slices the ill-behaved
nodes claim, then no two well-behaved nodes ever externalize different values. -/
theorem externalized_agree (sys : System) (hinter : sys.QuorumIntersectionDespite) (sched : Schedule)
    (hd : sys.Delivers sched) (w w' : NodeID) (hw : w ∈ sys.W) (hw' : w' ∈ sys.W) (x x' : Value)
    (hx : sys.Externalizes sched w x) (hx' : sys.Externalizes sched w' x') : x = x' :=
  hd.certified.agreement hinter hw hw' hx hx'

end System

/-! ## Two systems -/

/-- A node that knows every node's quorum set by the node's number, and takes every value. -/
def memberNode (qSet : NodeID → SCPQuorumSet)
    (sane : ∀ n, isQuorumSetSane (qSet n) false = true) (n : NodeID) : Node where
  nodeID := n
  isValidator := true
  qSet := qSet n
  qSetHash := n
  slotIndex := 0
  getQSet h := some (qSet h)
  validateValue _ _ := .kFullyValidatedValue
  signEnvelope _ := 0
  qSet_sane := sane n
  getQSet_qSetHash := rfl

/-- A system of such nodes. -/
def memberSystem (nodes W : Finset NodeID) (h : W ⊆ nodes) (qSet : NodeID → SCPQuorumSet)
    (sane : ∀ n, isQuorumSetSane (qSet n) false = true) : System where
  nodes := nodes
  W := W
  W_subset := h
  qSet := qSet
  sane n _ := sane n
  slotIndex := 0
  node := memberNode qSet sane
  node_nodeID _ _ := rfl
  node_qSet _ _ := rfl
  node_slotIndex _ _ := rfl
  resolve _ _ _ _ _ h := (Option.some.inj h).symm

/-- May the input come after the schedule `pre`? -/
def System.deliverable (sys : System) (pre : Schedule) : Input → Bool
  | .envelope env => decide (env.statement.nodeID ∈ sys.nodes) &&
    (decide (env.statement.nodeID ∉ sys.W) ||
      (sys.slot pre env.statement.nodeID).log.any fun
        | .emitCurrentStateStatement _ env' => decide (env' = env)
        | _ => false)
  | _ => true

theorem System.delivers_of_deliverable {sys : System} {sched : Schedule}
    (h : ∀ k : Fin sched.length, sys.deliverable (sched.take k) sched[k].2 = true) :
    sys.Delivers sched := by
  rintro pre w env post rfl
  have hk := h ⟨pre.length, by simp⟩
  simp only [Fin.getElem_fin, List.take_left, List.getElem_append_right (Nat.le_refl _),
    Nat.sub_self, List.getElem_cons_zero, System.deliverable, Bool.and_eq_true, Bool.or_eq_true,
    decide_eq_true_eq, List.any_eq_true] at hk
  refine ⟨hk.1, fun hW => ?_⟩
  obtain ⟨e, hmem, he⟩ := hk.2.resolve_left (not_not.mpr hW)
  cases e with
  | emitCurrentStateStatement bp env' => exact ⟨bp, of_decide_eq_true he ▸ hmem⟩
  | _ => cases he

/-- Nodes 1 and 2 need each other. -/
def pair : System :=
  memberSystem {1, 2} {1, 2} (by decide) (fun _ => .mk 2 [1, 2] []) (fun _ => by decide)

/-- A schedule in which both externalize. -/
def pairSchedule : Schedule :=
  [(1, .bumpState [5] false), (2, .bumpState [5] false),
    (2, .envelope ⟨⟨1, 0, .prepare ⟨1, ⟨1, [5]⟩, none, none, 0, 0⟩⟩, 0⟩),
    (1, .envelope ⟨⟨2, 0, .prepare ⟨2, ⟨1, [5]⟩, some ⟨1, [5]⟩, none, 0, 0⟩⟩, 0⟩),
    (2, .envelope ⟨⟨1, 0, .prepare ⟨1, ⟨1, [5]⟩, some ⟨1, [5]⟩, none, 1, 1⟩⟩, 0⟩),
    (1, .envelope ⟨⟨2, 0, .confirm ⟨⟨1, [5]⟩, 1, 1, 1, 2⟩⟩, 0⟩),
    (2, .envelope ⟨⟨1, 0, .externalize ⟨⟨1, [5]⟩, 1, 1⟩⟩, 0⟩)]

theorem pair_intersects : pair.QuorumIntersectionDespite := by
  -- a slice of either node has node 1
  have hone : ∀ U, pair.slices.Quorum pair.nodes pair.W U → (U ∩ pair.W).Nonempty →
      (1 : NodeID) ∈ U := by
    rintro U hU ⟨n, hn, hnW⟩
    obtain ⟨l, hl, hs⟩ := hU.slice n hn hnW
    refine hl 1 ?_
    rw [← List.contains_iff_mem]
    change countdown [l.contains 1, l.contains 2] (2 : Uint32) = true at hs
    cases h1 : l.contains 1 <;> cases h2 : l.contains 2 <;> rw [h1, h2] at hs <;>
      revert hs <;> decide
  intro U U' hU hU' hW hW'
  exact ⟨1, ⟨hone U hU hW, hone U' hU' hW'⟩, by simp [pair, memberSystem]⟩

theorem externalized_agree_pair :
    pair.QuorumIntersectionDespite ∧ pair.Delivers pairSchedule ∧
    pair.Externalizes pairSchedule 1 [5] ∧ pair.Externalizes pairSchedule 2 [5] ∧
    ([5] : Value) = [5] := by
  have hd : pair.Delivers pairSchedule := System.delivers_of_deliverable (by decide +kernel)
  have h1 : pair.Externalizes pairSchedule 1 [5] := ⟨by decide +kernel, by decide +kernel⟩
  have h2 : pair.Externalizes pairSchedule 2 [5] := ⟨by decide +kernel, by decide +kernel⟩
  exact ⟨pair_intersects, hd, h1, h2, System.externalized_agree pair pair_intersects pairSchedule
    hd 1 2 (by decide) (by decide) [5] [5] h1 h2⟩

/-- Node 1 listens to node 3, and so does node 2. Node 3 needs everybody. -/
def splitQSet : NodeID → SCPQuorumSet
  | 1 => .mk 2 [1, 3] []
  | 2 => .mk 2 [2, 3] []
  | _ => .mk 3 [1, 2, 3] []

theorem splitQSet_sane (n : NodeID) : isQuorumSetSane (splitQSet n) false = true := by
  unfold splitQSet
  split <;> decide

/-- The system in which node 3 is ill-behaved. -/
def split : System := memberSystem {1, 2, 3} {1, 2} (by decide) splitQSet splitQSet_sane

/-- Node 3 tells the others different things. -/
def splitSchedule : Schedule :=
  [(1, .envelope ⟨⟨3, 0, .externalize ⟨⟨1, [1]⟩, 1, 3⟩⟩, 0⟩),
    (2, .envelope ⟨⟨3, 0, .externalize ⟨⟨1, [2]⟩, 1, 3⟩⟩, 0⟩)]

/-- The quorums of the split system that have a well-behaved member have node 1. -/
theorem split_quorum {U : Set NodeID} (hU : ∀ n ∈ U, split.slices.slice n U)
    (hW : (U ∩ split.W).Nonempty) : (1 : NodeID) ∈ U := by
  obtain ⟨n, hn, hnW⟩ := hW
  have hnW' : n = 1 ∨ n = 2 := by simpa [split, memberSystem] using hnW
  rcases hnW' with rfl | rfl
  · exact hn
  · -- node 2 needs node 3, and node 3 needs node 1
    obtain ⟨l, hl, hs⟩ := hU 2 hn
    have h3 : (3 : NodeID) ∈ l := by
      rw [← List.contains_iff_mem]
      change countdown [l.contains 2, l.contains 3] (2 : Uint32) = true at hs
      cases h2 : l.contains 2 <;> cases h3 : l.contains 3 <;> rw [h2, h3] at hs <;>
        revert hs <;> decide
    obtain ⟨l', hl', hs'⟩ := hU 3 (hl 3 h3)
    refine hl' 1 ?_
    rw [← List.contains_iff_mem]
    change countdown [l'.contains 1, l'.contains 2, l'.contains 3] (3 : Uint32) = true at hs'
    cases h1 : l'.contains 1 <;> cases h2 : l'.contains 2 <;> cases h3 : l'.contains 3 <;>
      rw [h1, h2, h3] at hs' <;> revert hs' <;> decide

/-- All quorums intersect in a well-behaved node, and still two values are externalized: an
`EXTERNALIZE` of node 3 is a quorum with either of the others. -/
theorem externalize_splits :
    split.QuorumIntersection ∧ split.Delivers splitSchedule ∧
    (1 ∈ split.W ∧ split.Externalizes splitSchedule 1 [1]) ∧
    (2 ∈ split.W ∧ split.Externalizes splitSchedule 2 [2]) := by
  refine ⟨fun U U' _ _ hU hU' hW hW' => ?_, System.delivers_of_deliverable (by decide +kernel),
    ⟨by decide, by decide +kernel, by decide +kernel⟩,
    ⟨by decide, by decide +kernel, by decide +kernel⟩⟩
  exact ⟨1, ⟨split_quorum hU hW, split_quorum hU' hW'⟩, by simp [split, memberSystem]⟩

end SmartCore.SCP
