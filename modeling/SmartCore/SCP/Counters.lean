import SmartCore.SCP.Monotone

/-!
# Ballot counters

`attemptBump` is there to catch up: when a v-blocking set of nodes is working on higher counters,
the node is to move to the smallest counter that no v-blocking set is ahead of. The code walks
through the recorded counters in ascending order and leaves the walk at the first one below its
own, so that a single node that lags behind keeps it from ever getting to the others.

* `attemptBump_catchesUp_iff` says for which states the right counter is picked, and that the loop
  around `attemptBump` ends: after a bump nobody is ahead of the new counter, unless the node has
  entered `CONFIRM` on the way, which happens once.
* `run_neverWraps_iff` says in which runs the counter wraps. Others can push it to its maximum,
  and the next bump that is forced, by a timeout for instance, takes it back to 0.
-/

namespace SmartCore.SCP

variable {node : Node} {V : Value → Prop} {F inner : Prop} {R : SCPEnvelope → Prop}
  {s t u : Slot} {self : SelfProcess} {envs : EnvelopeMap} {n m : Uint32}

/-! ## Who is ahead -/

theorem isAheadOf_iff {st : SCPStatement} : isAheadOf n st = true ↔ n < statementCounter st := by
  unfold isAheadOf statementCounter
  cases st.pledges with
  | prepare p => exact decide_eq_true_iff
  | confirm c => exact decide_eq_true_iff
  | externalize e => exact decide_eq_true_iff.trans Fin.lt_last_iff_ne_last.symm

/-- The counter the node is working on, 0 before its first ballot. -/
def BallotProtocol.localCounter (s : BallotProtocol) : Uint32 :=
  (s.mCurrentBallot.map SCPBallot.counter).getD 0

/-- A v-blocking set of nodes is working on counters above `n`. -/
def Node.VBlockingAhead (node : Node) (envs : EnvelopeMap) (n : Uint32) : Prop :=
  ∃ nodes : List NodeID, isVBlocking node.qSet nodes = true ∧
    ∀ id ∈ nodes, ∃ env, envs[id]? = some env ∧ n < statementCounter env.statement

theorem vBlockingAhead_iff :
    node.VBlockingAhead envs n ↔ isVBlockingMap node.qSet envs (isAheadOf n) = true := by
  constructor
  · rintro ⟨nodes, hblocking, hahead⟩
    refine isVBlocking_mono (fun id hid => ?_) hblocking
    obtain ⟨env, henv, hlt⟩ := hahead id hid
    exact mem_filterNodes.mpr ⟨env, henv, isAheadOf_iff.mpr hlt⟩
  · intro h
    refine ⟨_, h, fun id hid => ?_⟩
    obtain ⟨env, henv, hlt⟩ := mem_filterNodes.mp hid
    exact ⟨env, henv, isAheadOf_iff.mp hlt⟩

/-- Fewer nodes are ahead of a higher counter, or in a map where fewer have high counters. -/
theorem Node.VBlockingAhead.mono {envs' : EnvelopeMap} (h : node.VBlockingAhead envs n)
    (hsub : ∀ (id : NodeID) (env : SCPEnvelope), envs[id]? = some env →
      n < statementCounter env.statement →
      ∃ env' : SCPEnvelope, envs'[id]? = some env' ∧ m < statementCounter env'.statement) :
    node.VBlockingAhead envs' m := by
  obtain ⟨nodes, hblocking, hahead⟩ := h
  refine ⟨nodes, hblocking, fun id hid => ?_⟩
  obtain ⟨env, henv, hlt⟩ := hahead id hid
  exact hsub id env henv hlt

theorem Node.VBlockingAhead.anti (h : node.VBlockingAhead envs n) (hle : m ≤ n) :
    node.VBlockingAhead envs m :=
  h.mono fun _ env henv hlt => ⟨env, henv, hle.trans_lt hlt⟩

/-- Nobody is ahead of the highest counter. -/
theorem not_vBlockingAhead_max : ¬ node.VBlockingAhead envs UINT32_MAX := by
  rintro ⟨nodes, hblocking, hahead⟩
  obtain ⟨id, hid⟩ := isVBlocking_nonempty hblocking
  obtain ⟨env, -, hlt⟩ := hahead id hid
  exact absurd hlt (Fin.le_last _).not_gt

/-- The smallest counter that no v-blocking set is ahead of. -/
def Node.IsCatchUp (node : Node) (envs : EnvelopeMap) (n : Uint32) : Prop :=
  IsLeast {n | ¬ node.VBlockingAhead envs n} n

theorem exists_isCatchUp (node : Node) (envs : EnvelopeMap) : ∃ n, node.IsCatchUp envs n := by
  have hne : {n | ¬ node.VBlockingAhead envs n}.Nonempty := ⟨_, not_vBlockingAhead_max⟩
  exact ⟨_, wellFounded_lt.min_mem _ hne, fun m hm => wellFounded_lt.min_le hm⟩

/-- If somebody is ahead, that counter is higher, and a node is at it. -/
theorem Node.IsCatchUp.recorded (h : node.IsCatchUp envs n) (hahead : node.VBlockingAhead envs m) :
    m < n ∧ ∃ (id : NodeID) (env : SCPEnvelope), envs[id]? = some env ∧
      statementCounter env.statement = n := by
  have hlt : m < n := lt_of_not_ge fun hle => h.1 (hahead.anti hle)
  refine ⟨hlt, ?_⟩
  by_contra hno
  -- a v-blocking set is ahead of the counter before `n`, and none of its nodes is at `n`
  have hpos : 0 < n.val := lt_of_le_of_lt (Nat.zero_le _) (Fin.lt_def.mp hlt)
  obtain ⟨k, hk⟩ : ∃ k : Uint32, k.val = n.val - 1 := ⟨⟨n.val - 1, by omega⟩, rfl⟩
  have hkn : k < n := Fin.lt_def.mpr (by omega)
  have hk_ahead : node.VBlockingAhead envs k := by
    by_contra hnot
    exact absurd (h.2 hnot) hkn.not_ge
  refine h.1 (hk_ahead.mono fun id env henv hlt => ⟨env, henv, lt_of_le_of_ne ?_ fun heq => ?_⟩)
  · rw [Fin.lt_def] at hlt
    rw [Fin.le_def]
    omega
  · exact hno ⟨id, env, henv, heq.symm⟩

/-! ## The walk through the counters -/

/-- The counters `attemptBump` looks at, in the order it does. -/
def BallotProtocol.counters (s : BallotProtocol) : List Uint32 :=
  (Std.ExtTreeSet.ofList (s.localCounter ::
    s.mLatestEnvelopes.toList.map fun e => statementCounter e.2.statement)).toList

theorem mem_counters {s : BallotProtocol} :
    n ∈ s.counters ↔ n = s.localCounter ∨ ∃ (id : NodeID) (env : SCPEnvelope),
      s.mLatestEnvelopes[id]? = some env ∧ statementCounter env.statement = n := by
  rw [BallotProtocol.counters, Std.ExtTreeSet.mem_toList, Std.ExtTreeSet.mem_ofList,
    List.contains_iff_mem, List.mem_cons, List.mem_map]
  simp only [Prod.exists, Std.ExtTreeMap.mem_toList_iff_getElem?_eq_some]

theorem pairwise_counters (s : BallotProtocol) : s.counters.Pairwise (· < ·) := by
  exact Std.ExtTreeSet.ordered_toList.imp fun h => compare_lt_iff_lt.mp h

/-- The walk ends at once when a counter lags behind. -/
theorem bumpLoop_lagging {target c : Uint32} {l : List Uint32} (hl : l.Pairwise (· < ·))
    (hc : c ∈ l) (hlag : c < target) : node.bumpLoop self envs target l = pure false := by
  cases l with
  | nil => cases hc
  | cons d rest =>
    have hd : d < target := by
      rcases List.mem_cons.mp hc with rfl | hc
      · exact hlag
      · exact ((List.pairwise_cons.mp hl).1 c hc).trans hlag
    rw [Node.bumpLoop, if_pos hd]

/-- Nothing is done when nobody is ahead. -/
theorem bumpLoop_stay {target : Uint32} {l : List Uint32} (hl : l.Pairwise (· < ·))
    (hmem : target ∈ l) (hahead : ¬ node.VBlockingAhead envs target) :
    node.bumpLoop self envs target l = pure false := by
  cases l with
  | nil => cases hmem
  | cons d rest =>
    by_cases hd : d = target
    · rw [Node.bumpLoop, hd, if_neg (lt_irrefl _)]
      rw [vBlockingAhead_iff, Bool.not_eq_true] at hahead
      simp [hahead]
    · have hd' : target ∈ rest := (List.mem_cons.mp hmem).resolve_left (Ne.symm hd)
      rw [Node.bumpLoop, if_pos ((List.pairwise_cons.mp hl).1 _ hd')]

/-- With nobody behind, the walk gets to the counter that nobody is ahead of. -/
theorem bumpLoop_move {target : Uint32} {l : List Uint32} (hl : l.Pairwise (· < ·))
    (hnone : ∀ c ∈ l, target ≤ c) (hn : node.IsCatchUp envs n) (hmem : n ∈ l) (hlt : target < n) :
    node.bumpLoop self envs target l = node.abandonBallot self n := by
  induction l with
  | nil => cases hmem
  | cons c rest ih =>
    obtain ⟨hc, hrest⟩ := List.pairwise_cons.mp hl
    rw [Node.bumpLoop, if_neg (hnone c List.mem_cons_self).not_gt]
    by_cases hcn : c = n
    · have hstop : isVBlockingMap node.qSet envs (isAheadOf n) = false := by
        rw [← Bool.not_eq_true, ← vBlockingAhead_iff]
        exact hn.1
      rw [hcn, if_neg hlt.ne']
      simp [hstop]
    · have hnr : n ∈ rest := (List.mem_cons.mp hmem).resolve_left (Ne.symm hcn)
      have hgo : isVBlockingMap node.qSet envs (isAheadOf c) = true := by
        rw [← vBlockingAhead_iff]
        by_contra hnot
        exact absurd (hn.2 hnot) (hc n hnr).not_ge
      simp only [hgo, Bool.not_true, Bool.false_eq_true, if_false, ite_self]
      exact ih hrest (fun d hd => hnone d (List.mem_cons_of_mem _ hd)) hnr

theorem attemptBump_eq (hphase : s.mPhase ≠ .EXTERNALIZE) :
    node.attemptBump self s =
      node.bumpLoop self s.mLatestEnvelopes s.localCounter s.counters s := by
  show (if s.mPhase = .EXTERNALIZE then pure false else
    node.bumpLoop self s.mLatestEnvelopes s.localCounter s.counters : SlotM Bool) s = _
  rw [if_neg hphase]

/-- `attemptBump` does nothing once the node has externalized, or if nobody is ahead. -/
theorem attemptBump_stay (h : s.mPhase = .EXTERNALIZE ∨
      ¬ node.VBlockingAhead s.mLatestEnvelopes s.localCounter) :
    node.attemptBump self s = .ok false s := by
  by_cases hphase : s.mPhase = .EXTERNALIZE
  · show (if s.mPhase = .EXTERNALIZE then pure false else
      node.bumpLoop self s.mLatestEnvelopes s.localCounter s.counters : SlotM Bool) s = _
    rw [if_pos hphase]
    rfl
  · rw [attemptBump_eq hphase, bumpLoop_stay (pairwise_counters _) (mem_counters.mpr (Or.inl rfl))
      (h.resolve_left hphase)]
    rfl

/-! ## Catching up -/

/-- The value `abandonBallot` bumps to, empty if it has none. -/
def Slot.abandonValue (s : Slot) : Value :=
  if s.mLatestCompositeCandidate = [] then (s.mCurrentBallot.map SCPBallot.value).getD []
  else s.mLatestCompositeCandidate

/-- The slot with `newb` for its current ballot and the timer started. -/
def Slot.bumpedTo (s : Slot) (newb : SCPBallot) : Slot :=
  Slot.logging { s with mCurrentBallot := some newb, mHeardFromQuorum := false }
    (.setupTimer newb.counter)

/-- The slot that has moved to the ballot `newb` and is about to say so. -/
def Slot.movedTo (s : Slot) (newb : SCPBallot) : Slot :=
  (s.bumpedTo newb).logging (.startedBallotProtocol newb)

/-- A recorded node is behind the counter the node itself is working on. -/
def BallotProtocol.SomeoneLags (s : BallotProtocol) : Prop :=
  ∃ (id : NodeID) (env : SCPEnvelope), s.mLatestEnvelopes[id]? = some env ∧
    statementCounter env.statement < s.localCounter

/-- Nothing is done unless a v-blocking set is ahead, and then the node moves to the smallest
counter that no v-blocking set is ahead of. -/
def Node.CatchesUp (node : Node) (self : SelfProcess) (s : Slot) : Prop :=
  (¬ node.VBlockingAhead s.mLatestEnvelopes s.localCounter →
    node.attemptBump self s = .ok false s) ∧
  (node.VBlockingAhead s.mLatestEnvelopes s.localCounter → s.abandonValue ≠ [] →
    ∃ n, node.IsCatchUp s.mLatestEnvelopes n ∧
      node.attemptBump self s =
        (do node.emitCurrentStateStatement self; pure true : SlotM Bool)
          (s.movedTo ⟨n, (s.mHighBallot.map SCPBallot.value).getD s.abandonValue⟩))

theorem localCounter_lt_of_current {b newb : SCPBallot} (h : s.localCounter < newb.counter)
    (hb : s.mCurrentBallot = some b) : b < newb := by
  have hlt : b.counter < newb.counter := by
    rw [BallotProtocol.localCounter, hb] at h
    exact h
  exact SCPBallot.lt_of_counter_lt hlt

theorem bumpToBallot_eq {newb : SCPBallot} (hphase : s.mPhase ≠ .EXTERNALIZE)
    (hb : ∀ b, s.mCurrentBallot = some b → b < newb) :
    bumpToBallot newb true s = .ok () (s.bumpedTo newb) := by
  have hnew : s.mCurrentBallot ≠ some newb := fun h => lt_irrefl _ (hb newb h)
  have hcheck : (s.mCurrentBallot.all fun b => decide (b ≤ newb)) = true := by
    cases hcur : s.mCurrentBallot with
    | none => rfl
    | some b => simpa using (hb b hcur).le
  have hwp : wp (bumpToBallot newb true) (fun _ s' => s' = s.bumpedTo newb) (fun _ _ => False)
      s := by
    simp [bumpToBallot, startBallotProtocolTimer, record, Slot.bumpedTo, hphase, hcheck, hnew]
  obtain ⟨_, s', hrun, rfl⟩ := exists_of_wp hwp
  exact hrun

/-- A bump to a higher counter succeeds. -/
theorem updateCurrentValue_eq (node : Node) {newb : SCPBallot} (hphase : s.mPhase ≠ .EXTERNALIZE)
    (hok : s.ballots.Ok) (hlt : s.localCounter < newb.counter)
    (hvalue : ∀ h, s.mHighBallot = some h → newb.value = h.value) :
    updateCurrentValue newb s = .ok true (s.bumpedTo newb) := by
  have hb : ∀ b, s.mCurrentBallot = some b → b < newb := fun b hb =>
    localCounter_lt_of_current hlt hb
  have hcommit : ∀ c, s.mCommit = some c → c.value = newb.value := by
    intro c hc
    obtain ⟨h, -, hh, -, ⟨-, hcv⟩, -⟩ := hok.commit c hc
    rw [hvalue h hh, hcv]
  have hguard : Guard node (fun _ => True) False s (.bump newb) :=
    ⟨hphase, ((Fin.zero_le _).trans_lt hlt).ne', hb, hcommit, hvalue, fun _ => Or.inl trivial⟩
  have hinv : checkInvariants (s.bumpedTo newb).toBallotProtocol = true :=
    checkInvariants_iff.mpr (hok.bump hguard)
  have hend : wp (do
      bumpToBallot newb true
      let t ← get
      require (checkInvariants t.toBallotProtocol) .checkInvariants
      pure true) (fun r s' => r = true ∧ s' = s.bumpedTo newb) (fun _ _ => False) s := by
    rw [wp_bind, wp, bumpToBallot_eq hphase hb]
    simpa using hinv
  have hwp : wp (updateCurrentValue newb) (fun r s' => r = true ∧ s' = s.bumpedTo newb)
      (fun _ _ => False) s := by
    unfold updateCurrentValue
    simp only [wp_bind, wp_get]
    refine (wp_ite _ _).mpr ⟨fun h => absurd h hphase, fun _ => ?_⟩
    cases hcur : s.mCurrentBallot with
    | none => exact hend
    | some b =>
      have hlt' := hb b hcur
      have hcompat : (s.mCommit.any fun c => !areBallotsCompatible c newb) = false := by
        cases hc : s.mCommit with
        | none => rfl
        | some c => simpa using hcommit c hc
      simp only [wp_bind, wp_require]
      refine ⟨fun _ => ?_, fun h => by simp [hlt'.le] at h⟩
      rw [hcompat, if_neg (by simp), if_pos (by simpa using hlt')]
      exact hend
  obtain ⟨r, s', hrun, rfl, rfl⟩ := exists_of_wp hwp
  exact hrun

theorem bumpStateTo_eq {value : Value} (hphase : s.mPhase ≠ .EXTERNALIZE) (hok : s.ballots.Ok)
    (hlt : s.localCounter < n) :
    node.bumpStateTo self value n s =
      (do node.emitCurrentStateStatement self; pure true : SlotM Bool)
        (s.movedTo ⟨n, (s.mHighBallot.map SCPBallot.value).getD value⟩) := by
  obtain ⟨newb, hnewb⟩ : ∃ newb : SCPBallot,
      newb = ⟨n, (s.mHighBallot.map SCPBallot.value).getD value⟩ := ⟨_, rfl⟩
  have hupdate : updateCurrentValue newb s = .ok true (s.bumpedTo newb) := by
    refine updateCurrentValue_eq node hphase hok (by rwa [hnewb]) fun h hh => ?_
    rw [hnewb, hh]
    rfl
  rw [← hnewb]
  show (if s.mPhase = .EXTERNALIZE then pure false else do
    let updated ← updateCurrentValue ⟨n, (s.mHighBallot.map SCPBallot.value).getD value⟩
    if updated then do
      record (.startedBallotProtocol ⟨n, (s.mHighBallot.map SCPBallot.value).getD value⟩)
      node.emitCurrentStateStatement self
      pure true
    else pure false : SlotM Bool) s = _
  rw [if_neg hphase, ← hnewb, bind_of_ok hupdate]
  rfl

theorem abandonBallot_eq (hphase : s.mPhase ≠ .EXTERNALIZE) (hok : s.ballots.Ok)
    (hlt : s.localCounter < n) (hvalue : s.abandonValue ≠ []) :
    node.abandonBallot self n s =
      (do node.emitCurrentStateStatement self; pure true : SlotM Bool)
        (s.movedTo ⟨n, (s.mHighBallot.map SCPBallot.value).getD s.abandonValue⟩) := by
  rw [← bumpStateTo_eq hphase hok hlt]
  show (if s.abandonValue = [] then pure false
    else if n = 0 then node.bumpState self s.abandonValue true
    else node.bumpStateTo self s.abandonValue n : SlotM Bool) s = _
  rw [if_neg hvalue, if_neg ((Fin.zero_le _).trans_lt hlt).ne']

/-- The right counter is picked exactly when nobody lags, or nothing is to be done. -/
theorem catchesUp_iff (hphase : s.mPhase ≠ .EXTERNALIZE) (hok : s.ballots.Ok) :
    node.CatchesUp self s ↔
      (node.VBlockingAhead s.mLatestEnvelopes s.localCounter → s.abandonValue ≠ [] →
        ¬ s.SomeoneLags) := by
  constructor
  · rintro ⟨-, hmove⟩ hahead hvalue ⟨id, env, henv, hlag⟩
    obtain ⟨n, -, heq⟩ := hmove hahead hvalue
    rw [attemptBump_eq hphase, bumpLoop_lagging (pairwise_counters _)
      (mem_counters.mpr (Or.inr ⟨id, env, henv, rfl⟩)) hlag] at heq
    -- a bump that is made returns `true`, or does not return
    obtain ⟨_, _, -, hret⟩ := bind_eq_ok.mp heq.symm
    cases hret
  · intro hnone
    refine ⟨fun hahead => attemptBump_stay (Or.inr hahead), fun hahead hvalue => ?_⟩
    obtain ⟨n, hn⟩ := exists_isCatchUp node s.mLatestEnvelopes
    obtain ⟨hlt, id, env, henv, hcounter⟩ := hn.recorded hahead
    refine ⟨n, hn, ?_⟩
    rw [attemptBump_eq hphase, bumpLoop_move (pairwise_counters _) (fun c hc => ?_) hn
      (mem_counters.mpr (Or.inr ⟨id, env, henv, hcounter⟩)) hlt]
    · exact abandonBallot_eq hphase hok hlt hvalue
    · rcases mem_counters.mp hc with rfl | ⟨id', env', henv', rfl⟩
      · exact le_rfl
      · exact not_lt.mp fun hlag => hnone hahead hvalue ⟨id', env', henv', hlag⟩

/-! ## The loop around it -/

/-- `do … while (didBump)`, without a bound on the rounds. -/
inductive Node.BumpWhile (node : Node) (self : SelfProcess) :
    Bool → Slot → EStateM.Result Fault Slot Bool → Prop
  | stop {didWork : Bool} {s t : Slot} (h : node.attemptBump self s = .ok false t) :
    BumpWhile node self didWork s (.ok didWork t)
  | again {didWork : Bool} {s t : Slot} {r : EStateM.Result Fault Slot Bool}
    (h : node.attemptBump self s = .ok true t) (hr : BumpWhile node self true t r) :
    BumpWhile node self didWork s r
  | fault {didWork : Bool} {s t : Slot} {e : Fault} (h : node.attemptBump self s = .error e t) :
    BumpWhile node self didWork s (.error e t)

/-- One more round. -/
theorem bumpWhile_succ {didWork : Bool} {rounds : ℕ}
    (h : ∀ t, node.attemptBump self s = .ok true t →
      node.BumpWhile self true t (node.bumpRounds self rounds true t)) :
    node.BumpWhile self didWork s (node.bumpRounds self (rounds + 1) didWork s) := by
  rw [Node.bumpRounds]
  cases hrun : node.attemptBump self s with
  | ok r t =>
    rw [bind_of_ok hrun]
    cases r with
    | false => exact .stop hrun
    | true => exact .again hrun (h t hrun)
  | error e t =>
    rw [bind_of_error hrun]
    exact .fault hrun

/-- A slot that is not behind ends the loop. -/
theorem bumpWhile_of_stay {didWork : Bool} {rounds : ℕ} (h : s.mPhase = .EXTERNALIZE ∨
      ¬ node.VBlockingAhead s.mLatestEnvelopes s.localCounter) :
    node.BumpWhile self didWork s (node.bumpRounds self (rounds + 1) didWork s) := by
  refine bumpWhile_succ fun t ht => ?_
  rw [attemptBump_stay h] at ht
  cases ht

/-- Inside an attempt the node's own statement keeps up with its ballots. -/
theorem Step.sync (hst : Step node V F R True s t) (h : Sync node s) : Sync node t := by
  have hsame : t.ballots = s.ballots → t.mLatestEnvelopes = s.mLatestEnvelopes → Sync node t := by
    intro hb he
    rw [Sync, hb, he]
    exact h
  cases hst with
  | quiet hq => exact hsame hq.ballots hq.envelopes
  | probe hint => exact hsame rfl rfl
  | publish ch env hbump hg hp =>
    obtain ⟨pledges, hpl, rfl⟩ := hp.statement
    exact Or.inr ⟨pledges, hpl, by rw [hp.envelopes, getElem?_insert_self]⟩
  | remember env hn => exact hsame rfl rfl
  | send env hlast hemit => exact hsame rfl rfl
  | externalize v hphase hcommit hnone => exact hsame rfl rfl
  | receive env hin hr => exact absurd trivial hin

/-- How far a slot has come since `x`: its phase does not go back, and while it stays in `PREPARE`,
or has left it before, its current ballot does not either. -/
def Ballots.Since (x y : Ballots) : Prop :=
  x.phase.toNat ≤ y.phase.toNat ∧ ((x.phase = .PREPARE → y.phase = .PREPARE) → NotBelow x.b y.b)

theorem NotBelow.trans {x y z : Option SCPBallot} (h₁ : NotBelow x y) (h₂ : NotBelow y z) :
    NotBelow x z := by
  intro b hb
  obtain ⟨b', hb', hle⟩ := h₁ b hb
  obtain ⟨b'', hb'', hle'⟩ := h₂ b' hb'
  exact ⟨b'', hb'', hle.trans hle'⟩

theorem phase_eq_prepare {p q : Phase} (h : p.toNat ≤ q.toNat) (hq : q = .PREPARE) :
    p = .PREPARE := by
  subst hq
  cases p <;> simp_all [Phase.toNat]

theorem Ballots.Since.trans {x y z : Ballots} (h₁ : x.Since y) (h₂ : y.Since z) : x.Since z := by
  refine ⟨h₁.1.trans h₂.1, fun hxz => ?_⟩
  have hyz : y.phase = .PREPARE → z.phase = .PREPARE := fun hy => hxz (phase_eq_prepare h₁.1 hy)
  have hxy : x.phase = .PREPARE → y.phase = .PREPARE := fun hx => phase_eq_prepare h₂.1 (hxz hx)
  exact (h₁.2 hxy).trans (h₂.2 hyz)

theorem Ballots.Since.of_eq {x y : Ballots} (h : y = x) : x.Since y := by
  subst h
  exact ⟨le_rfl, fun _ => NotBelow.refl _⟩

theorem Step.since (hst : Step node V F R inner s t) (hs : s.ballots.Ok) :
    s.ballots.Since t.ballots := by
  cases hst with
  | quiet hq => exact .of_eq hq.ballots
  | probe hint => exact .of_eq rfl
  | publish ch env hbump hg hp =>
    have hadv := hg.advance hs
    rw [hp.ballots]
    exact ⟨hadv.phase, hadv.current⟩
  | remember env hn => exact .of_eq rfl
  | send env hlast hemit => exact .of_eq rfl
  | externalize v hphase hcommit hnone => exact .of_eq rfl
  | receive env hin hr => exact .of_eq hr.ballots

theorem Path.since (h : Path node V F R inner s t) (hs : s.ballots.Ok) :
    s.ballots.Since t.ballots :=
  (h.invariant (P := fun t => t.ballots.Ok ∧ s.ballots.Since t.ballots)
    (fun _ _ hst ht => ⟨hst.ok ht.1, ht.2.trans (hst.since ht.1)⟩) ⟨hs, .of_eq rfl⟩).2

/-- The node's own statement is at the counter the node is working on. -/
theorem Sync.statementCounter {env : SCPEnvelope} (h : Sync node s)
    (hphase : s.mPhase ≠ .EXTERNALIZE) (henv : s.mLatestEnvelopes[node.nodeID]? = some env) :
    statementCounter env.statement = s.localCounter := by
  rcases h with ⟨hnone, -⟩ | ⟨pledges, hpl, hrec⟩
  · rw [hnone] at henv
    cases henv
  · obtain rfl : node.createEnvelope pledges = env := Option.some.inj (hrec.symm.trans henv)
    simp only [Node.pledgesOf, ballots_phase, ballots_b] at hpl
    cases hph : s.mPhase with
    | PREPARE =>
      rw [hph] at hpl
      obtain rfl := Option.some.inj hpl
      cases hb : s.mCurrentBallot <;>
        simp [SCP.statementCounter, Node.createEnvelope, BallotProtocol.localCounter, hb]
    | CONFIRM =>
      simp only [hph] at hpl
      split at hpl
      · rename_i c h b p hc hh hb hp
        obtain rfl := Option.some.inj hpl
        simp [SCP.statementCounter, Node.createEnvelope, BallotProtocol.localCounter, hb]
      · cases hpl
    | EXTERNALIZE => exact absurd hph hphase

/-- After a bump to a counter that nobody is ahead of, nobody is ahead of the counter the node is
then at, unless it has entered `CONFIRM`. -/
theorem not_behind_after {newb : SCPBallot} (h : AfterPublish node V F R True s t (.bump newb))
    (hnot : ¬ node.VBlockingAhead s.mLatestEnvelopes newb.counter) :
    (t.mPhase = .EXTERNALIZE ∨ ¬ node.VBlockingAhead t.mLatestEnvelopes t.localCounter) ∨
      s.mPhase = .PREPARE ∧ t.mPhase = .CONFIRM := by
  obtain ⟨u, env, hpub, hpath, -⟩ := h
  have hphase : u.mPhase = s.mPhase := by
    rw [← ballots_phase, hpub.ballots]
    rfl
  have hub : u.mCurrentBallot = some newb := by
    rw [← ballots_b, hpub.ballots]
    rfl
  obtain ⟨pledges, hpl, henv⟩ := hpub.statement
  have hsync : Sync node t := hpath.invariant (fun _ _ => Step.sync)
    (Or.inr ⟨pledges, hpl, by rw [hpub.envelopes, getElem?_insert_self, henv]⟩)
  obtain ⟨hmono, hcurrent⟩ := hpath.since hpub.ok
  by_cases hext : t.mPhase = .EXTERNALIZE
  · exact Or.inl (Or.inl hext)
  by_cases hstay : u.mPhase = .PREPARE → t.mPhase = .PREPARE
  · -- the others are as they were, and the node itself is not ahead of itself
    refine Or.inl (Or.inr fun hahead => hnot (hahead.mono fun id env' henv' hlt => ?_))
    obtain ⟨b, hb, hle⟩ := hcurrent hstay newb hub
    have hle' : newb.counter ≤ t.localCounter := by
      rw [ballots_b] at hb
      rw [BallotProtocol.localCounter, hb]
      exact SCPBallot.counter_le hle
    by_cases hid : id = node.nodeID
    · rw [hid] at henv'
      rw [hsync.statementCounter hext henv'] at hlt
      exact absurd hlt (lt_irrefl _)
    · rw [hpath.innerRel.others id hid, hpub.envelopes, getElem?_insert_ne (Ne.symm hid)] at henv'
      exact ⟨env', henv', hle'.trans_lt hlt⟩
  · obtain ⟨hu, ht⟩ := Classical.not_imp.mp hstay
    refine Or.inr ⟨hphase ▸ hu, ?_⟩
    cases hph : t.mPhase <;> simp_all

section Rounds

variable (hself : SelfSpec node V F R self) (hrest : Rest node V F s)
include hself hrest

theorem bumpLoop_result (hin : inner → 1 ≤ s.mCurrentMessageLevel) (envs : EnvelopeMap)
    (target : Uint32) (l : List Uint32) :
    wp (node.bumpLoop self envs target l)
      (fun r s' => (r = false ∧ s' = s) ∨
        ∃ n, ¬ node.VBlockingAhead envs n ∧ BumpResult node V F R inner n s r s')
      (CrashFrom node V F R s) s := by
  induction l with
  | nil => exact Or.inl ⟨rfl, rfl⟩
  | cons n rest ih =>
    rw [Node.bumpLoop]
    refine (wp_ite _ _).mpr ⟨fun _ => Or.inl ⟨rfl, rfl⟩, fun hle => ?_⟩
    refine (wp_ite _ _).mpr ⟨fun _ => ?_, fun hne => ?_⟩
    · exact (wp_ite _ _).mpr ⟨fun _ => Or.inl ⟨rfl, rfl⟩, fun _ => ih⟩
    · refine (wp_ite _ _).mpr ⟨fun hstop => ?_, fun _ => ih⟩
      have hn : n ≠ 0 := by
        intro h0
        rw [h0, not_lt] at hle
        exact hne (h0.trans (Fin.le_zero_iff.mp hle).symm)
      refine wp_mono (abandonBallot_result hself hrest hin hn) (fun r s' h => Or.inr ⟨n, ?_, h⟩)
        fun _ _ h => h
      rw [vBlockingAhead_iff]
      simpa using hstop

/-- A bump that is made leads to a slot that is not behind, or to `CONFIRM`. -/
theorem attemptBump_result (hlevel : 1 ≤ s.mCurrentMessageLevel)
    (hrun : node.attemptBump self s = .ok true t) :
    Path node V F R False s t ∧ t.mCurrentMessageLevel = s.mCurrentMessageLevel ∧
      ((t.mPhase = .EXTERNALIZE ∨ ¬ node.VBlockingAhead t.mLatestEnvelopes t.localCounter) ∨
        s.mPhase = .PREPARE ∧ t.mPhase = .CONFIRM) := by
  have hphase : s.mPhase ≠ .EXTERNALIZE := by
    intro h
    rw [attemptBump_stay (Or.inl h)] at hrun
    cases hrun
  have hwp := bumpLoop_result hself hrest (fun _ : True => hlevel) s.mLatestEnvelopes
    s.localCounter s.counters
  rw [wp, ← attemptBump_eq hphase, hrun] at hwp
  rcases hwp with ⟨hfalse, -⟩ | ⟨n, hnot, hres⟩
  · cases hfalse
  · obtain ⟨hpath, hl⟩ := hres.path
    refine ⟨hpath, hl, ?_⟩
    rcases hres with ⟨hfalse, -⟩ | ⟨-, newb, rfl, hg, hafter⟩
    · cases hfalse
    · exact not_behind_after hafter hnot

/-- **The loop ends.** Three rounds are always enough. -/
theorem bumpWhile_bumpRounds (hlevel : 1 ≤ s.mCurrentMessageLevel) (rounds : ℕ) (didWork : Bool) :
    node.BumpWhile self didWork s (node.bumpRounds self (rounds + 3) didWork s) := by
  refine bumpWhile_succ fun t ht => ?_
  obtain ⟨hpath, hl, hstay | ⟨-, hconfirm⟩⟩ := attemptBump_result hself hrest hlevel ht
  · exact bumpWhile_of_stay hstay
  · -- the node has entered `CONFIRM`, with a counter that may be lower
    refine bumpWhile_succ fun u hu => ?_
    obtain ⟨-, -, hstay | ⟨hprepare, -⟩⟩ :=
      attemptBump_result hself (hpath.rest hrest) (hl ▸ hlevel) hu
    · exact bumpWhile_of_stay hstay
    · rw [hconfirm] at hprepare
      cases hprepare

end Rounds

/-- The states the code of a slot can be in, between two of its steps. -/
def Node.Reaches (node : Node) (s : Slot) : Prop :=
  Path node (fun _ => True) False (fun _ => True) False (freshSlot node) s

theorem Node.Reaches.bumpWhile (h : node.Reaches s) (hlevel : s.mCurrentMessageLevel = 1)
    (depth rounds : ℕ) (didWork : Bool) :
    node.BumpWhile (fun env => node.processEnvelope depth env true) didWork s
      (node.bumpRounds (fun env => node.processEnvelope depth env true) (rounds + 3) didWork s) :=
  bumpWhile_bumpRounds (processEnvelope_selfSpec node _ _ (fun _ => True) depth)
    (h.rest rest_freshSlot) hlevel.ge rounds didWork

/-- The bound on the rounds that the model puts on the loop is never met: an envelope has been
recorded before `advanceSlot` is called. -/
theorem Node.Reaches.bumpIfOutermost (h : node.Reaches s) (hlevel : s.mCurrentMessageLevel = 1)
    (hrec : s.mLatestEnvelopes.size ≠ 0) (depth : ℕ) (didWork : Bool) :
    node.BumpWhile (fun env => node.processEnvelope depth env true) didWork s
      (node.bumpIfOutermost (fun env => node.processEnvelope depth env true) didWork s) := by
  show node.BumpWhile _ didWork s ((if s.mCurrentMessageLevel = 1 then
    node.bumpRounds _ (s.mLatestEnvelopes.size + 2) didWork else pure didWork : SlotM Bool) s)
  rw [if_pos hlevel]
  obtain ⟨k, hk⟩ : ∃ k, s.mLatestEnvelopes.size = k + 1 := Nat.exists_eq_succ_of_ne_zero hrec
  rw [hk]
  exact h.bumpWhile hlevel depth k didWork

/-- **Catching up.** In every state of `PREPARE` or `CONFIRM` whose ballots satisfy the invariants
the right counter is picked if and only if there is nothing to do or nobody lags behind. The loop
around `attemptBump` ends whatever state `advanceSlot` has reached it in. -/
theorem attemptBump_catchesUp_iff (node : Node) :
    (∀ (self : SelfProcess) (s : Slot), s.mPhase ≠ .EXTERNALIZE →
      checkInvariants s.toBallotProtocol = true →
      (node.CatchesUp self s ↔
        (node.VBlockingAhead s.mLatestEnvelopes s.localCounter → s.abandonValue ≠ [] →
          ¬ s.SomeoneLags))) ∧
    ∀ (depth : ℕ) (s : Slot) (didWork : Bool), node.Reaches s → s.mCurrentMessageLevel = 1 →
      ∃ r, node.BumpWhile (fun env => node.processEnvelope depth env true) didWork s r := by
  constructor
  · intro self s hphase hinv
    exact catchesUp_iff hphase (checkInvariants_iff.mp hinv)
  · intro depth s didWork h hlevel
    exact ⟨_, h.bumpWhile hlevel depth 0 didWork⟩

/-- Node 0 listens to two of the nodes 1, 2 and 3. Every value is fine to it. -/
def committee : Node where
  nodeID := 0
  isValidator := true
  qSet := .mk 2 [1, 2, 3] []
  qSetHash := 7
  slotIndex := 0
  getQSet h := if h = 7 then some (.mk 2 [1, 2, 3] []) else none
  validateValue _ _ := .kFullyValidatedValue
  signEnvelope _ := 0
  qSet_sane := by decide
  getQSet_qSetHash := rfl

/-- Node `id` votes to prepare a ballot with counter `n`. -/
def votingFor (id : NodeID) (n : Uint32) : SCPEnvelope :=
  ⟨⟨id, 0, .prepare ⟨7, ⟨n, [1]⟩, none, none, 0, 0⟩⟩, 0⟩

/-- Nodes 1 and 2 are at counter 5, the node itself at counter 1, and nobody lags behind it. -/
def twoAhead : Slot :=
  { freshSlot committee with
    mCurrentBallot := some ⟨1, [1]⟩
    mLatestEnvelopes := Std.ExtTreeMap.ofList [(1, votingFor 1 5), (2, votingFor 2 5)] }

theorem attemptBump_catchesUp_twoAhead :
    twoAhead.mPhase ≠ .EXTERNALIZE ∧ checkInvariants twoAhead.toBallotProtocol = true ∧
      committee.VBlockingAhead twoAhead.mLatestEnvelopes twoAhead.localCounter ∧
      committee.CatchesUp committee.processSelf twoAhead := by
  have hphase : twoAhead.mPhase ≠ .EXTERNALIZE := by decide
  have hinv : checkInvariants twoAhead.toBallotProtocol = true := by decide
  refine ⟨hphase, hinv, vBlockingAhead_iff.mpr (by decide +kernel), ?_⟩
  refine ((attemptBump_catchesUp_iff committee).1 _ _ hphase hinv).mpr fun _ _ hlags => ?_
  obtain ⟨id, env, henv, hlag⟩ := hlags
  have hall : (twoAhead.mLatestEnvelopes.toList.all fun e =>
      decide (twoAhead.localCounter ≤ statementCounter e.2.statement)) = true := by decide +kernel
  have hle := List.all_eq_true.mp hall (id, env)
    (Std.ExtTreeMap.mem_toList_iff_getElem?_eq_some.mpr henv)
  exact absurd hlag (not_lt.mpr (of_decide_eq_true hle))

/-- The node has got to counter 3 by itself, node 3 has stayed at counter 1, and then nodes 1 and 2
turn out to be at counter 5. -/
def runPastLaggard : List Input :=
  [.bumpState [1] false, .abandonBallot, .abandonBallot,
    .envelope (votingFor 3 1), .envelope (votingFor 1 5), .envelope (votingFor 2 5)]

/-- Two of three nodes are ahead, and the node does not move. -/
theorem laggard_keeps_behind :
    committee.SaneInputs runPastLaggard ∧ committee.faultAfter runPastLaggard = none ∧
      (committee.slotAfter runPastLaggard).mPhase = .PREPARE ∧
      ¬ committee.CatchesUp committee.processSelf (committee.slotAfter runPastLaggard) := by
  have hphase : (committee.slotAfter runPastLaggard).mPhase = .PREPARE := by decide +kernel
  refine ⟨by decide +kernel, by decide +kernel, hphase, fun h => ?_⟩
  have hok := checkInvariants_iff.mp
    (show checkInvariants (committee.slotAfter runPastLaggard).toBallotProtocol = true by
      decide +kernel)
  refine (catchesUp_iff (by rw [hphase]; decide) hok).mp h
    (vBlockingAhead_iff.mpr (by decide +kernel)) (by decide +kernel) ?_
  exact ⟨3, votingFor 3 1, by decide +kernel, by decide +kernel⟩

/-! ## The assertion that a bump does not go back -/

/-- The fault of `updateCurrentValue` when the new ballot is below the current one. -/
abbrev wentBack : Fault := .dbgAssert .updateBackwards

theorem avoids_record (e : Fault) (ev : Event) : Avoids e (record ev) := Avoids.modify _

theorem avoids_startBallotProtocolTimer : Avoids wentBack startBallotProtocolTimer :=
  Avoids.get.bind fun _ => (Avoids.deref (by simp)).bind fun _ => avoids_record _ _

theorem avoids_bumpToBallot (ballot : SCPBallot) (check : Bool) :
    Avoids wentBack (bumpToBallot ballot check) := by
  refine Avoids.get.bind fun s => (Avoids.require (by simp)).bind fun _ =>
    (Avoids.require (by simp)).bind fun _ => (Avoids.set _).bind fun _ => ?_
  exact (Avoids.pure _).ite avoids_startBallotProtocolTimer

theorem avoids_updateCurrentIfNeeded : Avoids wentBack updateCurrentIfNeeded := by
  refine Avoids.get.bind fun s => (Avoids.deref (by simp)).bind fun h => ?_
  exact (avoids_bumpToBallot _ _).ite (Avoids.pure _)

theorem avoids_createStatement (type : Phase) : Avoids wentBack (node.createStatement type) := by
  refine Avoids.get.bind fun s => (Avoids.require (by simp)).bind fun _ => ?_
  cases type with
  | PREPARE => exact Avoids.pure _
  | CONFIRM =>
    refine (Avoids.deref (by simp)).bind fun c => (Avoids.deref (by simp)).bind fun h =>
      (Avoids.require (by simp)).bind fun _ => (Avoids.deref (by simp)).bind fun b => ?_
    exact (Avoids.deref (by simp)).bind fun p => Avoids.pure _
  | EXTERNALIZE =>
    refine (Avoids.deref (by simp)).bind fun c => (Avoids.deref (by simp)).bind fun h => ?_
    exact (Avoids.require (by simp)).bind fun _ => Avoids.pure _

theorem avoids_sendLatestEnvelope (e : Fault) : Avoids e sendLatestEnvelope := by
  refine Avoids.get.bind fun s => ?_
  cases s.mLastEnvelope with
  | none => exact Avoids.pure _
  | some last => exact ((Avoids.set _).bind fun _ => avoids_record _ _).ite (Avoids.pure _)

section Attempts

variable (hself : ∀ env, Avoids wentBack (self env))
include hself

theorem avoids_emitCurrentStateStatement : Avoids wentBack (node.emitCurrentStateStatement self) := by
  refine Avoids.get.bind fun s => (avoids_createStatement _).bind fun pledges =>
    (avoids_record _ _).bind fun _ => (Avoids.pure _).ite ?_
  refine (hself _).bind fun res => Avoids.ite ?_ (Avoids.throw (by simp))
  refine Avoids.get.bind fun s' => Avoids.ite ?_ (Avoids.pure _)
  exact (Avoids.set _).bind fun _ => avoids_sendLatestEnvelope _

theorem avoids_setPreparedAccept (ballot : SCPBallot) :
    Avoids wentBack (node.setPreparedAccept self ballot) := by
  refine Avoids.get.bind fun s => (Avoids.set _).bind fun _ =>
    (Avoids.require (by simp)).bind fun _ => (Avoids.modify _).bind fun _ =>
    Avoids.ite ?_ (Avoids.pure _)
  exact (avoids_record _ _).bind fun _ =>
    (avoids_emitCurrentStateStatement hself).bind fun _ => Avoids.pure _

theorem avoids_acceptLoop (l : List SCPBallot) : Avoids wentBack (node.acceptLoop self l) := by
  induction l with
  | nil => exact Avoids.pure _
  | cons ballot rest ih =>
    have htry (s : Slot) : Avoids wentBack (Node.acceptLoop.tryBallot node self s ballot
        (node.acceptLoop self rest)) :=
      ih.ite (ih.ite ((avoids_setPreparedAccept hself ballot).ite ih))
    refine Avoids.get.bind fun s => Avoids.ite ?_ (htry s)
    refine (Avoids.deref (by simp)).bind fun p => ih.ite ?_
    exact (Avoids.deref (by simp)).bind fun c => (Avoids.require (by simp)).bind fun _ => htry s

theorem avoids_attemptPreparedAccept (hint : SCPStatement) :
    Avoids wentBack (node.attemptPreparedAccept self hint) :=
  Avoids.get.bind fun _ => (Avoids.pure _).ite (avoids_acceptLoop hself _)

theorem avoids_attemptPreparedConfirmed (hint : SCPStatement) :
    Avoids wentBack (node.attemptPreparedConfirmed self hint) := by
  refine Avoids.get.bind fun s => (avoids_record _ _).bind fun _ =>
    (Avoids.pure _).ite ((Avoids.pure _).ite ?_)
  cases findNewH s.mHighBallot (node.isRatified s.toBallotProtocol)
      (candidatesDesc s.mLatestEnvelopes hint) with
  | none => exact Avoids.pure _
  | some found =>
    refine Avoids.get.bind fun s => (Avoids.set _).bind fun _ =>
      (Avoids.require (by simp)).bind fun _ => (Avoids.modify _).bind fun _ =>
      Avoids.ite ?_ (Avoids.pure _)
    exact avoids_updateCurrentIfNeeded.bind fun _ => (avoids_record _ _).bind fun _ =>
      (avoids_emitCurrentStateStatement hself).bind fun _ => Avoids.pure _

theorem avoids_setAcceptCommit (c h : SCPBallot) :
    Avoids wentBack (node.setAcceptCommit self c h) := by
  have hfinish : Avoids wentBack (Node.setAcceptCommit.finish node self h) :=
    avoids_updateCurrentIfNeeded.bind fun _ => (avoids_record _ _).bind fun _ =>
      (avoids_emitCurrentStateStatement hself).bind fun _ => Avoids.pure _
  refine Avoids.get.bind fun s => (Avoids.set _).bind fun _ =>
    Avoids.ite ?_ (hfinish.ite (Avoids.pure _))
  refine (Avoids.modify _).bind fun _ => ?_
  have hjoin : Avoids wentBack (do
      modify fun t : Slot => { t with mPreparedPrime := none }
      Node.setAcceptCommit.finish node self h) := (Avoids.modify _).bind fun _ => hfinish
  exact Avoids.ite ((avoids_bumpToBallot _ _).bind fun _ => hjoin) hjoin

theorem avoids_attemptAcceptCommit (hint : SCPStatement) :
    Avoids wentBack (node.attemptAcceptCommit self hint) := by
  have hsearch (s : Slot) (ballot : SCPBallot) :
      Avoids wentBack (Node.attemptAcceptCommit.search node self s ballot) :=
    ((avoids_setAcceptCommit hself _ _).ite (Avoids.pure _)).ite (Avoids.pure _)
  refine Avoids.get.bind fun s => (Avoids.pure _).ite ?_
  cases commitBallot hint with
  | none => exact Avoids.pure _
  | some ballot =>
    refine Avoids.ite ?_ (hsearch s ballot)
    exact (Avoids.deref (by simp)).bind fun h => (Avoids.pure _).ite (hsearch s ballot)

theorem avoids_setConfirmCommit (c h : SCPBallot) :
    Avoids wentBack (node.setConfirmCommit self c h) := by
  refine (Avoids.modify _).bind fun _ => avoids_updateCurrentIfNeeded.bind fun _ =>
    (Avoids.modify _).bind fun _ => (avoids_emitCurrentStateStatement hself).bind fun _ =>
    (avoids_record _ _).bind fun _ => Avoids.get.bind fun s => ?_
  exact (Avoids.deref (by simp)).bind fun commit => (avoids_record _ _).bind fun _ => Avoids.pure _

theorem avoids_attemptConfirmCommit (hint : SCPStatement) :
    Avoids wentBack (node.attemptConfirmCommit self hint) := by
  refine Avoids.get.bind fun s => (Avoids.pure _).ite ?_
  split
  · split
    · exact Avoids.pure _
    · split
      · exact Avoids.pure _
      · exact (Avoids.pure _).ite ((avoids_setConfirmCommit hself _ _).ite (Avoids.pure _))
  · exact Avoids.pure _

/-- A bump to a ballot that is not below the current one does not go back. -/
theorem bumpStateTo_avoids {value : Value} (h : ∀ b, s.mCurrentBallot = some b → b.counter < n) :
    wp (node.bumpStateTo self value n) (fun _ _ => True) (fun e _ => e ≠ wentBack) s := by
  have hbump (newb : SCPBallot) (hnewb : newb.counter = n) :
      wp (updateCurrentValue newb) (fun _ _ => True) (fun e _ => e ≠ wentBack) s := by
    have hend : Avoids wentBack (do
        bumpToBallot newb true
        let t ← get
        require (checkInvariants t.toBallotProtocol) .checkInvariants
        pure true) :=
      (avoids_bumpToBallot _ _).bind fun _ => Avoids.get.bind fun t =>
        (Avoids.require (by simp)).bind fun _ => Avoids.pure _
    rw [updateCurrentValue, wp_bind, wp_get]
    refine (wp_ite _ _).mpr ⟨fun _ => trivial, fun _ => ?_⟩
    cases hcur : s.mCurrentBallot with
    | none => exact hend s
    | some b =>
      have hlt : b < newb := SCPBallot.lt_of_counter_lt (hnewb ▸ h b hcur)
      have hrest : Avoids wentBack (if 0 < compareBallots b newb then pure false else do
          require (checkInvariants s.toBallotProtocol) .checkInvariants
          pure false : SlotM Bool) :=
        (Avoids.pure _).ite ((Avoids.require (by simp)).bind fun _ => Avoids.pure _)
      simp only [wp_bind, wp_require]
      refine ⟨fun _ => (wp_ite _ _).mpr ⟨fun _ => trivial, fun _ => ?_⟩,
        fun hfalse => by simp [hlt.le] at hfalse⟩
      exact (wp_ite _ _).mpr ⟨fun _ => hend s, fun _ => hrest s⟩
  rw [Node.bumpStateTo, wp_bind, wp_get]
  refine (wp_ite _ _).mpr ⟨fun _ => trivial, fun _ => ?_⟩
  rw [wp_bind]
  refine wp_mono (hbump _ rfl) (fun updated t _ => ?_) fun _ _ h => h
  have hemit : Avoids wentBack (do
      record (.startedBallotProtocol ⟨n, (s.mHighBallot.map SCPBallot.value).getD value⟩)
      node.emitCurrentStateStatement self
      pure true) :=
    (avoids_record _ _).bind fun _ => (avoids_emitCurrentStateStatement hself).bind fun _ =>
      Avoids.pure _
  exact (hemit.ite (Avoids.pure _)) t

theorem avoids_attemptBump : Avoids wentBack (node.attemptBump self) := by
  intro s
  have hloop (l : List Uint32) : wp (node.bumpLoop self s.mLatestEnvelopes s.localCounter l)
      (fun _ _ => True) (fun e _ => e ≠ wentBack) s := by
    induction l with
    | nil => trivial
    | cons c rest ih =>
      rw [Node.bumpLoop]
      refine (wp_ite _ _).mpr ⟨fun _ => trivial, fun hle => (wp_ite _ _).mpr
        ⟨fun _ => (wp_ite _ _).mpr ⟨fun _ => trivial, fun _ => ih⟩, fun hne =>
          (wp_ite _ _).mpr ⟨fun _ => ?_, fun _ => ih⟩⟩⟩
      have hlt : s.localCounter < c := lt_of_le_of_ne (not_lt.mp hle) (Ne.symm hne)
      rw [Node.abandonBallot, wp_bind, wp_get]
      refine (wp_ite _ _).mpr ⟨fun _ => trivial, fun _ => (wp_ite _ _).mpr
        ⟨fun h0 => absurd h0 ((Fin.zero_le _).trans_lt hlt).ne', fun _ => ?_⟩⟩
      refine bumpStateTo_avoids hself fun b hb => ?_
      rwa [BallotProtocol.localCounter, hb] at hlt
  rw [Node.attemptBump, wp_bind, wp_get]
  exact (wp_ite _ _).mpr ⟨fun _ => trivial, fun _ => hloop _⟩

theorem avoids_bumpRounds (rounds : ℕ) (didWork : Bool) :
    Avoids wentBack (node.bumpRounds self rounds didWork) := by
  induction rounds generalizing didWork with
  | zero => exact Avoids.throw (by simp)
  | succ rounds ih =>
    exact (avoids_attemptBump hself).bind fun didBump => (ih true).ite (Avoids.pure _)

theorem avoids_advanceSlot (hint : SCPStatement) : Avoids wentBack (node.advanceSlot self hint) := by
  have hheard : Avoids wentBack node.checkHeardFromQuorum := by
    refine Avoids.get.bind fun s => ?_
    cases s.mCurrentBallot with
    | none => exact Avoids.pure _
    | some b => exact ((Avoids.set _).bind fun _ => avoids_record _ _).ite (Avoids.pure _)
  have hall : Avoids wentBack (node.attemptAll self hint) :=
    (avoids_attemptPreparedAccept hself hint).bind fun _ =>
      (avoids_attemptPreparedConfirmed hself hint).bind fun _ =>
      (avoids_attemptAcceptCommit hself hint).bind fun _ =>
      (avoids_attemptConfirmCommit hself hint).bind fun _ => Avoids.pure _
  refine (Avoids.modify _).bind fun _ => Avoids.get.bind fun s =>
    (Avoids.require (by simp)).bind fun _ => hheard.bind fun _ => hall.bind fun attempted =>
    Avoids.bind ?_ fun didWork => (Avoids.modify _).bind fun _ =>
      (avoids_sendLatestEnvelope _).ite (Avoids.pure _)
  exact Avoids.get.bind fun s => (avoids_bumpRounds hself _ _).ite (Avoids.pure _)

end Attempts

/-- No envelope makes the ballot go back. -/
theorem avoids_processEnvelope (depth : ℕ) (env : SCPEnvelope) (isSelf : Bool) :
    Avoids wentBack (node.processEnvelope depth env isSelf) := by
  induction depth generalizing env isSelf with
  | zero => exact Avoids.throw (by simp)
  | succ depth ih =>
    refine (Avoids.require (by simp)).bind fun _ => (Avoids.deref (by simp)).bind fun _ =>
      Avoids.get.bind fun s => (Avoids.pure _).ite ((Avoids.pure _).ite
        ((avoids_record _ _).bind fun _ => (Avoids.pure _).ite (Avoids.ite ?_ ?_)))
    · exact (Avoids.modify _).bind fun _ => (Avoids.modify _).bind fun _ =>
        (avoids_advanceSlot (fun env => ih env true) _).bind fun _ => Avoids.pure _
    · exact (Avoids.deref (by simp)).bind fun commit =>
        ((Avoids.modify _).bind fun _ => Avoids.pure _).ite (Avoids.pure _)

/-! ## Forced bumps -/

/-- The input makes the code increment the counter of the ballot `b`. -/
def ForcedBump (s : Slot) (i : Input) (b : SCPBallot) : Prop :=
  s.mPhase ≠ .EXTERNALIZE ∧ s.mCurrentBallot = some b ∧
    match i with
    | .envelope _ => False
    | .bumpState _ force => force = true
    | .updatedCandidateValue _ => False
    | .timerExpired => s.mHeardFromQuorum = true ∧ s.abandonValue ≠ []
    | .abandonBallot => s.abandonValue ≠ []

/-- No bump overflows, the counter of the current ballot is never 0, neither between two inputs nor
at an emission, and the ballot never goes back. -/
structure Node.NeverWraps (node : Node) (inputs : List Input) : Prop where
  increments : ∀ pre i post s b, inputs = pre ++ i :: post → node.run pre = .ok () s →
    ForcedBump s i b → (b.counter + 1).val = b.counter.val + 1
  counters : ∀ pre post s b, inputs = pre ++ post → node.run pre = .ok () s →
    s.mCurrentBallot = some b → b.counter ≠ 0
  emissions : ∀ bp env b, Event.emitCurrentStateStatement bp env ∈ (node.slotAfter inputs).log →
    bp.mCurrentBallot = some b → b.counter ≠ 0
  assertion : node.faultAfter inputs ≠ some (.dbgAssert .updateBackwards)

/-- No bump is forced while the counter is at its maximum. -/
def Node.NeverForcedAtMaximum (node : Node) (inputs : List Input) : Prop :=
  ∀ pre i post s b, inputs = pre ++ i :: post → node.run pre = .ok () s →
    ForcedBump s i b → b.counter ≠ UINT32_MAX

theorem val_add_one (n : Uint32) : (n + 1).val = n.val + 1 ↔ n ≠ UINT32_MAX := by
  have hn := n.isLt
  rw [Fin.val_add, ne_eq, Fin.ext_iff, show (UINT32_MAX : Uint32).val = 2 ^ 32 - 1 from rfl,
    show (1 : Uint32).val = 1 from rfl]
  omega

theorem bumpState_avoids (hself : ∀ env, Avoids wentBack (self env)) {value : Value} {force : Bool}
    (h : ∀ b, force = true → s.mPhase ≠ .EXTERNALIZE → s.mCurrentBallot = some b →
      b.counter ≠ UINT32_MAX) :
    wp (node.bumpState self value force) (fun _ _ => True) (fun e _ => e ≠ wentBack) s := by
  rw [Node.bumpState, wp_bind, wp_get]
  refine (wp_ite _ _).mpr ⟨fun _ => trivial, fun hforce => ?_⟩
  by_cases hphase : s.mPhase = .EXTERNALIZE
  · rw [Node.bumpStateTo, wp_bind, wp_get, if_pos hphase]
    trivial
  · refine bumpStateTo_avoids hself fun b hb => ?_
    have hforced : force = true := by
      cases force with
      | true => rfl
      | false => exact absurd ⟨rfl, by rw [hb]; rfl⟩ hforce
    have hmax := (val_add_one b.counter).mpr (h b hforced hphase hb)
    rw [hb, Option.map_some, Option.getD_some, Fin.lt_def, hmax]
    exact Nat.lt_succ_self _

/-- An input that does not force a bump at the maximum does not make the ballot go back. -/
theorem step_avoids {i : Input} (h : ∀ b, ForcedBump s i b → b.counter ≠ UINT32_MAX) :
    wp (node.step i) (fun _ _ => True) (fun e _ => e ≠ wentBack) s := by
  have hself (env : SCPEnvelope) : Avoids wentBack (node.processSelf env) :=
    avoids_processEnvelope _ env true
  have habandon (hb : ∀ b, s.mPhase ≠ .EXTERNALIZE → s.mCurrentBallot = some b →
      s.abandonValue ≠ [] → b.counter ≠ UINT32_MAX) :
      wp (node.abandonBallot node.processSelf 0) (fun _ _ => True) (fun e _ => e ≠ wentBack) s := by
    rw [Node.abandonBallot, wp_bind, wp_get]
    refine (wp_ite _ _).mpr ⟨fun _ => trivial, fun hv => (wp_ite _ _).mpr
      ⟨fun _ => ?_, fun hne => absurd rfl hne⟩⟩
    exact bumpState_avoids hself fun b _ hphase hcur => hb b hphase hcur hv
  cases i with
  | envelope env =>
    exact (Avoids.bind (avoids_processEnvelope _ env false) fun _ => Avoids.pure _) s
  | bumpState value force =>
    rw [Node.step, wp_bind]
    exact bumpState_avoids hself fun b hforce hphase hcur => h b ⟨hphase, hcur, hforce⟩
  | updatedCandidateValue value =>
    rw [Node.step, wp_bind, wp_modify, wp_bind]
    exact bumpState_avoids hself fun b hforce => by cases hforce
  | timerExpired =>
    rw [Node.step, Node.ballotProtocolTimerExpired, wp_bind, wp_get]
    refine (wp_ite _ _).mpr ⟨fun hheard => ?_, fun _ => avoids_startBallotProtocolTimer s⟩
    rw [wp_bind]
    exact habandon fun b hphase hcur hv => h b ⟨hphase, hcur, hheard, hv⟩
  | abandonBallot =>
    rw [Node.step, wp_bind]
    exact habandon fun b hphase hcur hv => h b ⟨hphase, hcur, hv⟩

/-- Every emission of a run passed the invariants, whether or not the process is still alive. -/
theorem run_emissions (node : Node) (inputs : List Input) (bp : BallotProtocol) (env : SCPEnvelope)
    (h : Event.emitCurrentStateStatement bp env ∈ (node.slotAfter inputs).log) :
    bp.ballots.Ok := by
  rcases run_spec_any node inputs with ⟨-, hpath⟩ | ⟨e, -, u, hpath, hcrash⟩
  · exact (hpath.invariant (fun _ _ => Step.sound) sound_freshSlot).emissions bp env h
  · exact hcrash.emissions (hpath.invariant (fun _ _ => Step.sound) sound_freshSlot) bp env h

theorem run_sound {inputs : List Input} (h : node.run inputs = .ok () s) : Sound s := by
  rcases run_spec_any node inputs with ⟨-, hpath⟩ | ⟨e, he, -⟩
  · rw [Node.slotAfter, h] at hpath
    exact hpath.invariant (fun _ _ => Step.sound) sound_freshSlot
  · rw [Node.faultAfter, h] at he
    cases he

/-- **The counter wraps in no run but those that force a bump at the maximum.** The inputs are
arbitrary: any envelopes, bumps and timer events, in any order. -/
theorem run_neverWraps_iff (node : Node) (inputs : List Input) :
    node.NeverWraps inputs ↔ node.NeverForcedAtMaximum inputs := by
  constructor
  · intro h pre i post s b heq hrun hforced
    exact (val_add_one _).mp (h.increments pre i post s b heq hrun hforced)
  · intro h
    refine ⟨fun pre i post s b heq hrun hforced => ?_, fun pre post s b heq hrun hb => ?_,
      fun bp env b hmem hb => ?_, ?_⟩
    · exact (val_add_one _).mpr (h pre i post s b heq hrun hforced)
    · exact (run_sound hrun).now.counter_ne b hb
    · exact (run_emissions node inputs bp env hmem).counter_ne b hb
    · have hwp : wp (runInputs node.step inputs) (fun _ _ => True) (fun e _ => e ≠ wentBack)
          (freshSlot node) :=
        wp_runInputs trivial fun pre i post s heq hrun _ =>
          step_avoids fun b hforced => h pre i post s b heq hrun hforced
      intro hfault
      rw [Node.faultAfter, Node.run] at hfault
      rw [wp] at hwp
      cases hrun : runInputs node.step inputs (freshSlot node) with
      | ok _ s =>
        rw [hrun] at hfault
        cases hfault
      | error e s =>
        rw [hrun] at hfault hwp
        exact hwp (Option.some.inj hfault)

/-- Two of the nodes vote for a ballot with the highest counter there is, and then the timer
fires. -/
def runToMaximum : List Input :=
  [.bumpState [1] false, .envelope (votingFor 1 4294967295), .envelope (votingFor 2 4294967295),
    .timerExpired]

/-- The timer takes the counter from its maximum to 0, and the assertion fires. -/
theorem timer_wraps_counter :
    committee.SaneInputs runToMaximum ∧
      committee.faultAfter runToMaximum = some (.dbgAssert .updateBackwards) ∧
      ¬ committee.NeverWraps runToMaximum := by
  have hfault : committee.faultAfter runToMaximum = some (.dbgAssert .updateBackwards) := by
    decide +kernel
  exact ⟨by decide +kernel, hfault, fun h => h.assertion hfault⟩

end SmartCore.SCP
