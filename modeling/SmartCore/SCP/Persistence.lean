import SmartCore.SCP.Monotone

/-!
# Restarting a node

A node that emits an envelope saves it, and a restarted node sets the state of its slot from the
envelope it saved last (`HerderImpl::persistSCPState` and `restoreSCPState`). A statement does not
carry the whole state: `createStatement` keeps the counters of `h` and `c` only, and in `CONFIRM`
that of `p`, and `setStateFromEnvelope` completes them with the value of `b`.

`survives_restart_iff` says when that completion is right (`Ballots.Restorable`). It is wrong when `h` was
confirmed with another value than the one `b` carries, which happens as soon as a quorum has prepared
a ballot below `b`: the restarted node then believes that another ballot is prepared. It is also
wrong in `CONFIRM` if `p` carries another value than the commit, and before the node has a ballot at
all.

What the node has sent is safe in any case: a restarted node sends strictly newer statements only
(`restart_forward`).
-/

namespace SmartCore.SCP

variable {node : Node} {V : Value → Prop} {F inner : Prop} {R : SCPEnvelope → Prop} {s t : Slot}

/-! ## Setting the state -/

def setStateFromPledges : Pledges → SlotM Unit
  | .prepare prep => do
    let b := prep.ballot
    bumpToBallot b true
    modify fun s => { s with
      mPrepared := prep.prepared.or s.mPrepared
      mPreparedPrime := prep.preparedPrime.or s.mPreparedPrime
      mHighBallot := if prep.nH ≠ 0 then some ⟨prep.nH, b.value⟩ else s.mHighBallot
      mCommit := if prep.nC ≠ 0 then some ⟨prep.nC, b.value⟩ else s.mCommit
      mPhase := .PREPARE }
  | .confirm c => do
    let v := c.ballot.value
    bumpToBallot c.ballot true
    modify fun s => { s with
      mPrepared := some ⟨c.nPrepared, v⟩
      mHighBallot := some ⟨c.nH, v⟩
      mCommit := some ⟨c.nCommit, v⟩
      mPhase := .CONFIRM }
  | .externalize ext => do
    let v := ext.commit.value
    bumpToBallot ⟨UINT32_MAX, v⟩ true
    modify fun s => { s with
      mPrepared := some ⟨UINT32_MAX, v⟩
      mHighBallot := some ⟨ext.nH, v⟩
      mCommit := some ext.commit
      mPhase := .EXTERNALIZE }

/-- `BallotProtocol::setStateFromEnvelope`, behind the check of the slot that the envelope is the
node's own for this slot. -/
def Node.setStateFromEnvelope (node : Node) (e : SCPEnvelope) : SlotM Unit := do
  if e.statement.nodeID = node.nodeID ∧ e.statement.slotIndex = node.slotIndex then do
    let s ← get
    require s.mCurrentBallot.isNone .alreadyStarted
    modify fun s => s.recordEnvelope e
    modify fun s => { s with mLastEnvelope := some e, mLastEnvelopeEmit := some e }
    setStateFromPledges e.statement.pledges
  else pure ()

/-- A run of a slot whose state was set from a saved envelope. -/
def Node.restart (node : Node) (e : SCPEnvelope) (inputs : List Input) : SlotM Unit := do
  node.setStateFromEnvelope e
  runInputs node.step inputs

/-- The slot after such a run, whether or not the process is still alive. -/
def Node.slotAfterRestart (node : Node) (e : SCPEnvelope) (inputs : List Input) : Slot :=
  match node.restart e inputs (freshSlot node) with
  | .ok _ s => s
  | .error _ s => s

/-- The envelope that is in the database: it is written on every emission. -/
def savedEnvelope (log : List Event) : Option SCPEnvelope := (emitted log).getLast?

/-! ## What is restored -/

/-- The ballots that `setStateFromPledges` gives a fresh slot. -/
def Pledges.restored : Pledges → Ballots
  | .prepare prep =>
    { phase := .PREPARE
      b := some prep.ballot
      p := prep.prepared
      p' := prep.preparedPrime
      h := if prep.nH = 0 then none else some ⟨prep.nH, prep.ballot.value⟩
      c := if prep.nC = 0 then none else some ⟨prep.nC, prep.ballot.value⟩ }
  | .confirm c =>
    { phase := .CONFIRM
      b := some c.ballot
      p := some ⟨c.nPrepared, c.ballot.value⟩
      h := some ⟨c.nH, c.ballot.value⟩
      c := some ⟨c.nCommit, c.ballot.value⟩ }
  | .externalize ext =>
    { phase := .EXTERNALIZE
      b := some ⟨UINT32_MAX, ext.commit.value⟩
      p := some ⟨UINT32_MAX, ext.commit.value⟩
      h := some ⟨ext.nH, ext.commit.value⟩
      c := some ext.commit }

/-- A slot right after its state was set from `e`. -/
structure Restored (node : Node) (e : SCPEnvelope) (s : Slot) : Prop where
  ballots : s.ballots = e.statement.pledges.restored
  envelopes : s.mLatestEnvelopes = (∅ : EnvelopeMap).insert node.nodeID e
  last : s.mLastEnvelope = some e
  lastEmit : s.mLastEnvelopeEmit = some e
  composite : s.mLatestCompositeCandidate = []
  level : s.mCurrentMessageLevel = 0
  log : ∃ n, s.log = [.setupTimer n]

/-- Setting the state of a fresh slot always works. -/
theorem setStateFromEnvelope_fresh (node : Node) (pledges : Pledges) :
    ∃ t, node.setStateFromEnvelope (node.createEnvelope pledges) (freshSlot node) = .ok () t ∧
      Restored node (node.createEnvelope pledges) t := by
  have hwp : wp (node.setStateFromEnvelope (node.createEnvelope pledges))
      (fun _ t => Restored node (node.createEnvelope pledges) t) (fun _ _ => False)
      (freshSlot node) := by
    unfold Node.setStateFromEnvelope
    rw [if_pos ⟨rfl, rfl⟩]
    cases pledges <;>
      simp [Node.createEnvelope, setStateFromPledges, bumpToBallot, startBallotProtocolTimer,
        record, freshSlot, Slot.recordEnvelope] <;>
      exact ⟨rfl, rfl, rfl, rfl, rfl, rfl, _, rfl⟩
  unfold wp at hwp
  cases hrun : node.setStateFromEnvelope (node.createEnvelope pledges) (freshSlot node) with
  | ok u t =>
    rw [hrun] at hwp
    exact ⟨t, rfl, hwp⟩
  | error e t =>
    rw [hrun] at hwp
    exact hwp.elim

/-! ## When the round trip is right -/

/-- What a restart must keep: everything in `PREPARE` and `CONFIRM`, and in `EXTERNALIZE` the
commit and the counter of `h`. -/
def Ballots.SameAfterRestart (x y : Ballots) : Prop :=
  if x.phase = .EXTERNALIZE then
    y.phase = .EXTERNALIZE ∧ y.c = x.c ∧
      y.h.map SCPBallot.counter = x.h.map SCPBallot.counter
  else y = x

/-- The ballots that are sent by their counter only carry the value of `b`. -/
def Ballots.Restorable (x : Ballots) : Prop :=
  match x.phase with
  | .PREPARE => ∃ b, x.b = some b ∧ ∀ h, x.h = some h → h.counter ≠ 0 ∧ h.value = b.value
  | .CONFIRM => ∀ b p, x.b = some b → x.p = some p → p.value = b.value
  | .EXTERNALIZE => True

/-- What every statement is made of. -/
structure Ballots.Stated (node : Node) (x : Ballots) : Prop where
  ok : x.Ok
  prime : x.PrimeBelow
  commit_ne : ∀ c, x.c = some c → c.counter ≠ 0
  confirming : x.phase = .CONFIRM → x.p' = none
  pledges : node.pledgesOf x ≠ none

theorem sameAfterRestart_prepare {x : Ballots} (hx : x.Stated node) (hphase : x.phase = .PREPARE)
    {pledges : Pledges} (hpl : node.pledgesOf x = some pledges) :
    x.SameAfterRestart pledges.restored ↔ x.Restorable := by
  obtain rfl : .prepare _ = pledges := by simpa [Node.pledgesOf, hphase] using hpl
  obtain ⟨phase, b, p, p', h, c⟩ := x
  obtain rfl : phase = .PREPARE := hphase
  have hcommit := hx.ok.commit
  have hne := hx.commit_ne
  simp only [Ballots.SameAfterRestart, Ballots.Restorable, Pledges.restored, reduceCtorEq, if_false,
    Ballots.mk.injEq, true_and] at hcommit hne ⊢
  constructor
  · rintro ⟨hb, hh, -⟩
    refine ⟨_, hb.symm, fun h' hh' => ?_⟩
    subst hh'
    simp only [Option.map_some, Option.getD_some] at hh
    split_ifs at hh with h0
    exact ⟨h0, (congrArg SCPBallot.value (Option.some.inj hh)).symm⟩
  · rintro ⟨b', rfl, hh⟩
    have hhigh : ∀ h', h = some h' → (⟨h'.counter, b'.value⟩ : SCPBallot) = h' := by
      intro h' hh'
      exact SCPBallot.ext_of_le (hh h' hh').2.symm rfl
    refine ⟨rfl, ?_, ?_⟩
    · cases h with
      | none => rfl
      | some h' => simp [(hh h' rfl).1, hhigh h' rfl]
    · cases c with
      | none => rfl
      | some c' =>
        obtain ⟨h', b'', hh', hb'', ⟨-, hv⟩, -, hv'⟩ := hcommit c' rfl
        obtain rfl := Option.some.inj hb''
        have : (⟨c'.counter, b'.value⟩ : SCPBallot) = c' :=
          SCPBallot.ext_of_le (hv.trans hv').symm rfl
        simp [hne c' rfl, this]

theorem sameAfterRestart_confirm {x : Ballots} (hx : x.Stated node) (hphase : x.phase = .CONFIRM)
    {pledges : Pledges} (hpl : node.pledgesOf x = some pledges) :
    x.SameAfterRestart pledges.restored ↔ x.Restorable := by
  obtain ⟨c, hc⟩ := Option.ne_none_iff_exists'.mp (hx.ok.committed (by simp [hphase]))
  obtain ⟨h, b, hh, hb, ⟨-, hcv⟩, -, hhv⟩ := hx.ok.commit c hc
  have hprime := hx.confirming hphase
  obtain ⟨phase, b', p, p', h', c'⟩ := x
  obtain rfl : phase = .CONFIRM := hphase
  obtain rfl : c' = some c := hc
  obtain rfl : h' = some h := hh
  obtain rfl : b' = some b := hb
  obtain rfl : p' = none := hprime
  cases p with
  | none => simp [Node.pledgesOf] at hpl
  | some p =>
    obtain rfl : .confirm _ = pledges := by simpa [Node.pledgesOf] using hpl
    have hh' : (⟨h.counter, b.value⟩ : SCPBallot) = h := SCPBallot.ext_of_le hhv.symm rfl
    have hc' : (⟨c.counter, b.value⟩ : SCPBallot) = c :=
      SCPBallot.ext_of_le (hcv.trans hhv).symm rfl
    simp only [Ballots.SameAfterRestart, Ballots.Restorable, Pledges.restored, reduceCtorEq,
      if_false, Ballots.mk.injEq, true_and, hh', hc', and_true, Option.some.injEq]
    constructor
    · rintro hp b' p' rfl rfl
      exact (congrArg SCPBallot.value hp).symm
    · intro hv
      exact SCPBallot.ext_of_le (hv b p rfl rfl).symm rfl

theorem sameAfterRestart_externalize {x : Ballots} (hphase : x.phase = .EXTERNALIZE)
    {pledges : Pledges} (hpl : node.pledgesOf x = some pledges) :
    x.SameAfterRestart pledges.restored ↔ x.Restorable := by
  obtain ⟨phase, b, p, p', h, c⟩ := x
  obtain rfl : phase = .EXTERNALIZE := hphase
  cases c with
  | none => simp [Node.pledgesOf] at hpl
  | some c =>
    cases h with
    | none => simp [Node.pledgesOf] at hpl
    | some h =>
      obtain rfl : .externalize _ = pledges := by simpa [Node.pledgesOf] using hpl
      simp [Ballots.SameAfterRestart, Ballots.Restorable, Pledges.restored]

/-- A statement restores the ballots it was made of if and only if they are restorable. -/
theorem sameAfterRestart_iff {x : Ballots} (hx : x.Stated node) {pledges : Pledges}
    (hpl : node.pledgesOf x = some pledges) :
    x.SameAfterRestart pledges.restored ↔ x.Restorable := by
  cases hphase : x.phase with
  | PREPARE => exact sameAfterRestart_prepare hx hphase hpl
  | CONFIRM => exact sameAfterRestart_confirm hx hphase hpl
  | EXTERNALIZE => exact sameAfterRestart_externalize hphase hpl

/-! ## What every run keeps -/

theorem Guard.commit_ne {ch : Change} (hg : Guard node V F s ch)
    (h : ∀ c, s.mCommit = some c → c.counter ≠ 0) :
    ∀ c, (ch.apply s.ballots).c = some c → c.counter ≠ 0 := by
  intro c hc
  cases ch with
  | acceptPrepared ballot =>
    simp only [Change.apply] at hc
    split_ifs at hc
    exact h c hc
  | confirmPrepared newC newH =>
    simp only [Change.apply] at hc
    split_ifs at hc with hne
    · obtain rfl := Option.some.inj hc
      exact hne
    · exact h c hc
  | acceptCommit c' h' =>
    obtain rfl : c' = c := by
      simp only [Change.apply] at hc
      split_ifs at hc <;> exact Option.some.inj hc
    exact hg.2.1
  | confirmCommit c' h' =>
    obtain rfl : c' = c := Option.some.inj hc
    exact hg.2.1
  | bump newb => exact h c hc

/-- `p'` is dropped on the way to `CONFIRM`, and there `p` only rises to compatible ballots. -/
theorem Guard.confirming {ch : Change} (hg : Guard node V F s ch)
    (h : s.mPhase = .CONFIRM → s.mPreparedPrime = none) :
    (ch.apply s.ballots).phase = .CONFIRM → (ch.apply s.ballots).p' = none := by
  intro hphase
  cases ch with
  | acceptPrepared ballot =>
    obtain ⟨-, hconf, hprime, hcov, -⟩ := hg
    obtain ⟨p, hp, hle, hv⟩ := hconf hphase
    have hnone := h hphase
    simp only [Change.apply, ballots_p, ballots_p']
    rcases setPrepared_cases hprime hcov with ⟨hn, -⟩ | ⟨q, hq, -, hset⟩ | ⟨q, hq, hlt, hne, -⟩
    · rw [hp] at hn
      cases hn
    · obtain rfl : p = q := Option.some.inj (hp.symm.trans hq)
      rw [hset]
      simp [hv, hnone]
    · obtain rfl : p = q := Option.some.inj (hp.symm.trans hq)
      exact absurd hv.symm hne
  | confirmPrepared newC newH => exact h hphase
  | acceptCommit c h' =>
    by_cases hprep : s.mPhase = .PREPARE
    · rw [Change.apply_acceptCommit_prepare hprep]
    · rw [Change.apply_acceptCommit_confirm hprep] at hphase ⊢
      exact h hphase
  | confirmCommit c h' => cases hphase
  | bump newb => exact h hphase

/-- The ballots now and at each emission can be stated, and every envelope that was remembered or
sent is one that was made for such ballots. -/
structure Kept (node : Node) (s : Slot) : Prop where
  now : s.ballots.Stated node
  emissions : ∀ bp env, Event.emitCurrentStateStatement bp env ∈ s.log →
    bp.ballots.Stated node ∧ ∃ pledges, node.pledgesOf bp.ballots = some pledges ∧
      env = node.createEnvelope pledges ∧ pledgesSane pledges true = true
  last : ∀ env, s.mLastEnvelope = some env →
    ∃ bp, Event.emitCurrentStateStatement bp env ∈ s.log
  sent : ∀ env ∈ emitted s.log, ∃ bp, Event.emitCurrentStateStatement bp env ∈ s.log

theorem Guard.stated {ch : Change} {pledges : Pledges} (hg : Guard node V F s ch)
    (hr : Rest node V F s) (h : Kept node s) (hballots : t.ballots = ch.apply s.ballots)
    (hok : t.ballots.Ok) (hpl : node.pledgesOf t.ballots = some pledges) :
    t.ballots.Stated node := by
  refine ⟨hok, ?_, ?_, ?_, by simp [hpl]⟩ <;> rw [hballots]
  · exact hg.primeBelow hr.prime
  · exact hg.commit_ne h.now.commit_ne
  · exact hg.confirming h.now.confirming

theorem Step.kept (hst : Step node V F R inner s t) (hr : Rest node V F s) (h : Kept node s) :
    Kept node t := by
  have hsub := hst.log_subset
  refine ⟨?_, fun bp env hmem => ?_, fun env he => ?_, fun env he => ?_⟩
  · rcases hst.ballots_eq with heq | ⟨ch, env, hg, hp⟩
    · rw [heq]
      exact h.now
    obtain ⟨pledges, hpl, -⟩ := hp.statement
    exact hg.stated hr h hp.ballots hp.ok hpl
  · rcases hst.emission hmem with hold | ⟨ch, hg, hp, hbp⟩
    · exact h.emissions bp env hold
    obtain ⟨pledges, hpl, rfl⟩ := hp.statement
    rw [hbp]
    refine ⟨hg.stated hr h hp.ballots hp.ok hpl, pledges, hpl, rfl, ?_⟩
    rcases hp.processable with hrec | ⟨bp', n, -, -, -, -, hproc⟩
    · exact (hr.recorded _ _ hrec).2
    · exact isStatementSane_pledges hproc.sane
  · rcases hst.last he with hold | ⟨bp, hmem⟩
    · obtain ⟨bp, hmem⟩ := h.last env hold
      exact ⟨bp, hsub hmem⟩
    · exact ⟨bp, hsub hmem⟩
  · rcases hst.sent he with hold | hlast
    · obtain ⟨bp, hmem⟩ := h.sent env hold
      exact ⟨bp, hsub hmem⟩
    · obtain ⟨bp, hmem⟩ := h.last env hlast
      exact ⟨bp, hsub hmem⟩

theorem stated_fresh : ({} : Ballots).Stated node where
  ok := ⟨by simp, by simp, by simp, by simp⟩
  prime p' h := by cases h
  commit_ne c h := by cases h
  confirming h := by cases h
  pledges := by simp [Node.pledgesOf]

theorem kept_freshSlot : Kept node (freshSlot node) where
  now := stated_fresh
  emissions := by simp [freshSlot]
  last env h := by cases h
  sent env h := by cases h

theorem Path.kept (h : Path node V F R inner s t) (hs : Rest node V F s ∧ Kept node s) :
    Rest node V F t ∧ Kept node t :=
  h.invariant (P := fun s => Rest node V F s ∧ Kept node s)
    (fun _ _ hst hs => ⟨hst.rest hs.1, hst.kept hs.1 hs.2⟩) hs

/-- Every member of the trace is fresh or was stated. -/
theorem mem_trace {x : Ballots} {log : List Event} (h : x ∈ trace log) :
    x = {} ∨ ∃ bp env, Event.emitCurrentStateStatement bp env ∈ log ∧ bp.ballots = x := by
  simp only [trace, snapshots, List.mem_cons, List.mem_filterMap] at h
  rcases h with h | ⟨e, he, hx⟩
  · exact Or.inl h
  · cases e <;> simp at hx
    exact Or.inr ⟨_, _, he, hx⟩

theorem Kept.stated {x : Ballots} (h : Kept node s) (hx : x ∈ trace s.log) : x.Stated node := by
  rcases mem_trace hx with rfl | ⟨bp, env, hmem, rfl⟩
  · exact stated_fresh
  · exact (h.emissions bp env hmem).1

/-- The last statement of a process that dies is made of ballots like any other. -/
theorem Crash.stated {e : Fault} {x : Ballots} (hc : Crash node V F s e t) (hr : Rest node V F s)
    (h : Kept node s) (hx : x ∈ trace t.log) : x.Stated node := by
  rcases mem_trace hx with rfl | ⟨bp, env, hmem, rfl⟩
  · exact stated_fresh
  rcases hc.emission hmem with hold | ⟨ch, pledges, hg, hballots, hok, hpl, hbp⟩
  · exact (h.emissions bp env hold).1
  · rw [hbp]
    exact hg.stated hr h hballots hok hpl

/-- A process that dies sends nothing more. -/
theorem Crash.emitted_eq {e : Fault} (hc : Crash node V F s e t) :
    emitted t.log = emitted s.log := by
  cases hc with
  | publish ch hg hp =>
    rcases hp.log with hq | ⟨-, pledges, -, hlog⟩
    · exact emitted_quiet hq
    · exact hlog.emitted
  | rest hphase hcommit hlog hbad hnull hinv => exact emitted_quiet hlog

/-! ## After a restart -/

/-- What was sent after a restart from `e` is newer than `e`. -/
structure Beyond (e : SCPEnvelope) (s : Slot) : Prop where
  last : ∃ last, s.mLastEnvelope = some last ∧
    ((last = e ∧ s.mLastEnvelopeEmit = some e) ∨
      isNewerStatement e.statement last.statement = true)
  sent : ∀ env ∈ emitted s.log, isNewerStatement e.statement env.statement = true

theorem Beyond.of_same {e : SCPEnvelope} (h : Beyond e s) (hlast : t.mLastEnvelope = s.mLastEnvelope)
    (hemit : t.mLastEnvelopeEmit = s.mLastEnvelopeEmit) (hemitted : emitted t.log = emitted s.log) :
    Beyond e t where
  last := by rw [hlast, hemit]; exact h.last
  sent := by rw [hemitted]; exact h.sent

theorem Step.beyond {e : SCPEnvelope} (hst : Step node V F R inner s t) (h : Beyond e s) :
    Beyond e t := by
  cases hst with
  | quiet hq => exact h.of_same hq.last hq.lastEmit (emitted_quiet hq.log)
  | probe hint => exact h.of_same rfl rfl (by simp [emitted])
  | publish ch env hbump hg hp => exact h.of_same hp.last hp.lastEmit hp.log.emitted
  | remember env hn hlog =>
    obtain ⟨last, hlast, hor⟩ := h.last
    refine ⟨⟨env, rfl, Or.inr ?_⟩, h.sent⟩
    rcases hor with ⟨rfl, -⟩ | hnew
    · exact hn last hlast
    · exact isNewerStatement_trans hnew (hn last hlast)
  | send env hlast hemit =>
    obtain ⟨last, hlast', hor⟩ := h.last
    obtain rfl : env = last := Option.some.inj (hlast.symm.trans hlast')
    have hnew : isNewerStatement e.statement env.statement = true := by
      rcases hor with ⟨rfl, hsent⟩ | hnew
      · exact absurd hsent hemit
      · exact hnew
    refine ⟨⟨env, hlast, Or.inr hnew⟩, fun env' he => ?_⟩
    have he' : env' ∈ emitted s.log ∨ env' = env := by simpa [emitted] using he
    rcases he' with he' | rfl
    · exact h.sent env' he'
    · exact hnew
  | externalize v hphase hcommit hnone => exact h.of_same rfl rfl (by simp [emitted])
  | receive env hin hr => exact h.of_same hr.last hr.lastEmit (emitted_quiet hr.quiet)

/-- The ballots restored from a statement have `p'` below `p`. -/
theorem Ballots.PrimeBelow.restored {x : Ballots} (hprime : x.PrimeBelow) {pledges : Pledges}
    (hpl : node.pledgesOf x = some pledges) : pledges.restored.PrimeBelow := by
  cases pledges with
  | prepare prep =>
    unfold Node.pledgesOf at hpl
    split at hpl
    · obtain ⟨rfl⟩ := Option.some.inj hpl
      exact hprime
    · split at hpl <;> simp at hpl
    · split at hpl <;> simp at hpl
  | confirm c =>
    intro p' hp'
    cases hp'
  | externalize ext =>
    intro p' hp'
    cases hp'

theorem Restored.rest {pledges : Pledges} (h : Restored node (node.createEnvelope pledges) s)
    (hprime : pledges.restored.PrimeBelow) (hsane : pledgesSane pledges true = true) :
    Rest node V False s where
  sync hF := hF.elim
  prime := by rw [h.ballots]; exact hprime
  announced _ := by
    obtain ⟨n, hn⟩ := h.log
    rw [hn]
    rfl
  composite := Or.inl h.composite
  recorded n env henv := by
    rw [h.envelopes] at henv
    by_cases hn : node.nodeID = n
    · subst hn
      rw [getElem?_insert_self] at henv
      obtain rfl := Option.some.inj henv
      exact ⟨rfl, hsane⟩
    · rw [getElem?_insert_ne hn] at henv
      simp at henv

theorem Restored.beyond {e : SCPEnvelope} (h : Restored node e s) : Beyond e s where
  last := ⟨e, h.last, Or.inl ⟨rfl, h.lastEmit⟩⟩
  sent env he := by
    obtain ⟨n, hn⟩ := h.log
    rw [hn] at he
    cases he

/-- A run after a restart sends statements newer than the one it restarted from. -/
theorem restart_beyond {pledges : Pledges} (hprime : pledges.restored.PrimeBelow)
    (hsane : pledgesSane pledges true = true) (inputs : List Input) {env : SCPEnvelope}
    (henv : env ∈ emitted (node.slotAfterRestart (node.createEnvelope pledges) inputs).log) :
    isNewerStatement (node.createEnvelope pledges).statement env.statement = true := by
  obtain ⟨t, ht, hres⟩ := setStateFromEnvelope_fresh node pledges
  have hrest : Rest node (fun _ => True) False t := hres.rest hprime hsane
  have hwp := runInputs_spec (R := fun _ => True) hrest inputs fun pre i _ _ _ _ _ => by
    cases i <;> simp [InputOk]
  have hrestart : node.restart (node.createEnvelope pledges) inputs (freshSlot node) =
      runInputs node.step inputs t := by
    show EStateM.bind _ _ _ = _
    rw [EStateM.bind, ht]
  unfold Node.slotAfterRestart at henv
  rw [hrestart] at henv
  unfold wp at hwp
  cases hrun : runInputs node.step inputs t with
  | ok _ s =>
    rw [hrun] at hwp henv
    exact (hwp.invariant (fun _ _ => Step.beyond) hres.beyond).sent env henv
  | error e s =>
    rw [hrun] at hwp henv
    obtain ⟨u, hpath, hcrash⟩ := hwp
    rw [hcrash.emitted_eq] at henv
    exact (hpath.invariant (fun _ _ => Step.beyond) hres.beyond).sent env henv

/-! ## Whole runs -/

/-- The state of a fresh slot, set from the envelope that the node makes of `s`, is that of `s`. -/
def Node.RoundTrips (node : Node) (s : Slot) : Prop :=
  ∃ pledges t, node.createStatement s.mPhase s = .ok pledges s ∧
    node.setStateFromEnvelope (node.createEnvelope pledges) (freshSlot node) = .ok () t ∧
    s.ballots.SameAfterRestart t.ballots

theorem roundTrips_iff (hs : s.ballots.Stated node) :
    node.RoundTrips s ↔ s.ballots.Restorable := by
  obtain ⟨pledges, hpl⟩ := Option.ne_none_iff_exists'.mp hs.pledges
  have hcreate : node.createStatement s.mPhase s = .ok pledges s := by
    have hwp : wp (node.createStatement s.mPhase) (fun r s' => r = pledges ∧ s' = s)
        (fun _ _ => False) s := by
      refine createStatement_spec (fun _ pledges' hpl' => ?_) (fun hbad => hbad hs.ok) fun _ hnull => ?_
      · rw [hpl] at hpl'
        exact ⟨(Option.some.inj hpl').symm, rfl⟩
      · rw [hpl] at hnull
        cases hnull
    unfold wp at hwp
    cases hrun : node.createStatement s.mPhase s with
    | ok r s' =>
      rw [hrun] at hwp
      rw [hwp.1, hwp.2]
    | error e s' =>
      rw [hrun] at hwp
      exact hwp.elim
  obtain ⟨t, ht, hres⟩ := setStateFromEnvelope_fresh node pledges
  have hsame : s.ballots.SameAfterRestart t.ballots ↔ s.ballots.Restorable := by
    rw [hres.ballots]
    exact sameAfterRestart_iff hs hpl
  constructor
  · rintro ⟨pledges', t', hcreate', ht', h⟩
    rw [hcreate] at hcreate'
    obtain ⟨rfl, -⟩ := EStateM.Result.ok.inj hcreate'
    rw [ht] at ht'
    obtain ⟨-, rfl⟩ := EStateM.Result.ok.inj ht'
    exact hsame.mp h
  · intro h
    exact ⟨pledges, t, hcreate, ht, hsame.mpr h⟩

/-- The ballots of every state in which a run makes a statement, and the fresh ones. -/
theorem stated_of_mem_trace (inputs : List Input) {x : Ballots}
    (hx : x ∈ trace (node.slotAfter inputs).log) : x.Stated node := by
  rcases run_spec_any node inputs with ⟨-, hpath⟩ | ⟨e, -, u, hpath, hcrash⟩
  · exact (hpath.kept ⟨rest_freshSlot, kept_freshSlot⟩).2.stated hx
  · obtain ⟨hrest, hkept⟩ := hpath.kept ⟨rest_freshSlot, kept_freshSlot⟩
    exact hcrash.stated hrest hkept hx

/-- The state of a process that is alive is the one its last statement was made of. -/
theorem ballots_mem_trace {inputs : List Input} (halive : node.faultAfter inputs = none) :
    (node.slotAfter inputs).ballots ∈ trace (node.slotAfter inputs).log := by
  rcases run_spec_any node inputs with ⟨-, hpath⟩ | ⟨e, he, -⟩
  · obtain ⟨-, h⟩ := hpath.forward ⟨sound_freshSlot, forward_freshSlot⟩
    exact List.mem_of_getLast? h.last
  · rw [halive] at he
    cases he

/-- What a run has sent was made of a sane statement, and the last envelope is the newest. -/
theorem emitted_spec (inputs : List Input) :
    (∀ env ∈ emitted (node.slotAfter inputs).log, ∃ x pledges, Ballots.Stated node x ∧
      node.pledgesOf x = some pledges ∧ env = node.createEnvelope pledges ∧
      pledgesSane pledges true = true) ∧
    (emitted (node.slotAfter inputs).log).Pairwise
      fun a b => isNewerStatement a.statement b.statement = true := by
  have key : ∀ u, Path node (fun _ => True) False (fun _ => True) False (freshSlot node) u →
      (∀ env ∈ emitted u.log, ∃ x pledges, Ballots.Stated node x ∧
        node.pledgesOf x = some pledges ∧ env = node.createEnvelope pledges ∧
        pledgesSane pledges true = true) ∧
      (emitted u.log).Pairwise fun a b => isNewerStatement a.statement b.statement = true := by
    intro u hpath
    obtain ⟨-, hkept⟩ := hpath.kept ⟨rest_freshSlot, kept_freshSlot⟩
    obtain ⟨-, hforward⟩ := hpath.forward ⟨sound_freshSlot, forward_freshSlot⟩
    refine ⟨fun env henv => ?_, hforward.sent⟩
    obtain ⟨bp, hmem⟩ := hkept.sent env henv
    obtain ⟨hstated, pledges, hpl, heq, hsane⟩ := hkept.emissions bp env hmem
    exact ⟨bp.ballots, pledges, hstated, hpl, heq, hsane⟩
  rcases run_spec_any node inputs with ⟨-, hpath⟩ | ⟨e, -, u, hpath, hcrash⟩
  · exact key _ hpath
  · rw [hcrash.emitted_eq]
    exact key u hpath

/-- **A restarted node does not go back on what it has sent.** -/
theorem restart_forward {inputs inputs' : List Input} {e old new : SCPEnvelope}
    (he : savedEnvelope (node.slotAfter inputs).log = some e)
    (hnew : new ∈ emitted (node.slotAfterRestart e inputs').log)
    (hold : old ∈ emitted (node.slotAfter inputs).log) :
    isNewerStatement old.statement new.statement = true := by
  obtain ⟨hmade, hsorted⟩ := emitted_spec inputs
  obtain ⟨x, pledges, hx, hpl, rfl, hsane⟩ := hmade e (List.mem_of_getLast? he)
  have hbeyond := restart_beyond (hx.prime.restored hpl) hsane inputs' hnew
  obtain ⟨before, hsplit⟩ := List.getLast?_eq_some_iff.mp he
  rw [hsplit, List.mem_append, List.mem_singleton] at hold
  rw [hsplit, List.pairwise_append] at hsorted
  rcases hold with hold | rfl
  · exact isNewerStatement_trans (hsorted.2.2 old hold _ (List.mem_singleton.mpr rfl)) hbeyond
  · exact hbeyond

/-- **State survives a restart exactly when it is restorable.** `s` is any slot with the ballots of
the fresh slot or of any state in which the run made a statement; the state at the end of the run
is one of them. -/
theorem survives_restart_iff (node : Node) (inputs : List Input) :
    (node.faultAfter inputs = none →
      (node.slotAfter inputs).ballots ∈ trace (node.slotAfter inputs).log) ∧
    (∀ s : Slot, s.ballots ∈ trace (node.slotAfter inputs).log →
      (node.RoundTrips s ↔ s.ballots.Restorable)) ∧
    ∀ e, savedEnvelope (node.slotAfter inputs).log = some e → ∀ inputs' : List Input,
      ∀ new ∈ emitted (node.slotAfterRestart e inputs').log,
      ∀ old ∈ emitted (node.slotAfter inputs).log,
        isNewerStatement old.statement new.statement = true := by
  refine ⟨ballots_mem_trace, fun s hs => roundTrips_iff (stated_of_mem_trace inputs hs), ?_⟩
  intro e he inputs' new hnew old hold
  exact restart_forward he hnew hold

deriving instance DecidableEq for Ballots

/-- In `CONFIRM` everything is restored, and the envelope that the node had saved there is older
than the one it sends when it then hears what it needs to externalize. -/
theorem survives_restart_runToExternalize :
    listener.RoundTrips (listener.slotAfter (runToExternalize.take 3)) ∧
    (savedEnvelope (listener.slotAfter (runToExternalize.take 3)).log).isSome = true ∧
    ∀ e, savedEnvelope (listener.slotAfter (runToExternalize.take 3)).log = some e →
      ∀ new ∈ emitted (listener.slotAfterRestart e (runToExternalize.drop 3)).log,
        isNewerStatement e.statement new.statement = true := by
  obtain ⟨hmem, htrip, hforward⟩ := survives_restart_iff listener (runToExternalize.take 3)
  have hballots : (listener.slotAfter (runToExternalize.take 3)).ballots =
      { phase := .CONFIRM, b := some ⟨1, [1]⟩, p := some ⟨1, [1]⟩, h := some ⟨1, [1]⟩,
        c := some ⟨1, [1]⟩ } := by decide +kernel
  refine ⟨(htrip _ (hmem (by decide +kernel))).mpr ?_, by decide +kernel, fun e he new hnew => ?_⟩
  · rw [hballots]
    intro b p hb hp
    rw [← Option.some.inj hb, ← Option.some.inj hp]
  · exact hforward e he _ new hnew e (List.mem_of_getLast? he)

/-- The listener votes for a ballot above the one that the other node has prepared. -/
def runToOtherHigh : List Input :=
  [.bumpState [2] false,
    .envelope (fromOther (.prepare ⟨7, ⟨1, [1]⟩, some ⟨1, [1]⟩, none, 0, 0⟩))]

/-- The listener has confirmed `(1, [1])` as prepared; after a restart it takes `(1, [2])` for
confirmed, which nobody has prepared. -/
theorem restart_changes_high :
    listener.SaneInputs runToOtherHigh ∧ listener.faultAfter runToOtherHigh = none ∧
      ¬ listener.RoundTrips (listener.slotAfter runToOtherHigh) := by
  have halive : listener.faultAfter runToOtherHigh = none := by decide +kernel
  have hballots : (listener.slotAfter runToOtherHigh).ballots =
      { phase := .PREPARE, b := some ⟨1, [2]⟩, p := some ⟨1, [1]⟩, h := some ⟨1, [1]⟩ } := by
    decide +kernel
  have hnot : ¬ Ballots.Restorable
      { phase := .PREPARE, b := some ⟨1, [2]⟩, p := some ⟨1, [1]⟩, h := some ⟨1, [1]⟩ } := by
    rintro ⟨b, hb, hh⟩
    have hv := (hh ⟨1, [1]⟩ rfl).2
    rw [← Option.some.inj hb] at hv
    simp at hv
  have hstated : (listener.slotAfter runToOtherHigh).ballots.Stated listener :=
    stated_of_mem_trace runToOtherHigh (ballots_mem_trace halive)
  rw [← hballots] at hnot
  rw [roundTrips_iff hstated]
  exact ⟨by decide +kernel, halive, hnot⟩

end SmartCore.SCP
