import SmartCore.SCP.Rest

/-!
# The code follows the transition system

Every function of the ballot protocol, run from a slot at rest, either returns after a path of
the transition system or dies in one of its crashes. The proof is by induction on the nesting of
self envelopes: `SelfSpec` is what a function may assume of the processing of the node's own
envelope, and `processEnvelope_selfSpec` establishes it for one more level of nesting.

Two facts about the order of the attempts are needed on the way, both when no envelope arrives
under the node's own name:

* after `attemptPreparedAccept` no confirmed candidate of the same hint is above `p`
  (`AcceptDone.confirmed_le`), so `attemptPreparedConfirmed` never raises `h` above `p`;
* a commit is only accepted by a node that has prepared something (`AcceptDone.prepared`),
  because the votes for the commit are also votes to prepare.

Main results: `step_spec` for one input, `run_spec` for a whole run.
-/

namespace SmartCore.SCP

variable {node : Node} {V : Value → Prop} {F inner : Prop} {R : SCPEnvelope → Prop} {s t u : Slot}

/-! ## Emitting a statement -/

theorem createStatement_spec {Q : Pledges → Slot → Prop} {E : Fault → Slot → Prop}
    (hok : s.ballots.Ok → ∀ pledges, node.pledgesOf s.ballots = some pledges → Q pledges s)
    (hinv : ¬ s.ballots.Ok → E .checkInvariants s)
    (hnull : s.ballots.Ok → node.pledgesOf s.ballots = none →
      E (.nullDeref .createStatement) s) :
    wp (node.createStatement s.mPhase) Q E s := by
  unfold Node.createStatement
  simp only [wp_bind, wp_get, wp_require]
  refine ⟨fun h => ?_, fun h => hinv fun hb => by simp [checkInvariants_iff.mpr hb] at h⟩
  have hb : s.ballots.Ok := checkInvariants_iff.mp h
  cases hph : s.mPhase with
  | PREPARE => exact hok hb _ (by simp [Node.pledgesOf, hph])
  | CONFIRM =>
    obtain ⟨c, hc⟩ := Option.ne_none_iff_exists'.mp (hb.committed (by simp [hph]))
    obtain ⟨h, b, hh, hbb, hch, hhb⟩ := hb.commit c hc
    simp only [ballots_c, ballots_h, ballots_b] at hc hh hbb
    cases hp : s.mPrepared with
    | none =>
      simpa [hc, hh, hbb, hp, hch] using
        hnull hb (by simp [Node.pledgesOf, hph, hc, hh, hbb, hp])
    | some p =>
      have hpl : node.pledgesOf s.ballots =
          some (.confirm ⟨b, p.counter, c.counter, h.counter, node.qSetHash⟩) := by
        simp [Node.pledgesOf, hph, hc, hh, hbb, hp]
      simpa [hc, hh, hbb, hp, hch] using hok hb _ hpl
  | EXTERNALIZE =>
    obtain ⟨c, hc⟩ := Option.ne_none_iff_exists'.mp (hb.committed (by simp [hph]))
    obtain ⟨h, b, hh, hbb, hch, hhb⟩ := hb.commit c hc
    simp only [ballots_c, ballots_h, ballots_b] at hc hh hbb
    have hpl : node.pledgesOf s.ballots =
        some (.externalize ⟨c, h.counter, node.qSetHash⟩) := by
      simp [Node.pledgesOf, hph, hc, hh]
    simpa [hc, hh, hch] using hok hb _ hpl

theorem sendLatestEnvelope_spec (node : Node) (V : Value → Prop) (F : Prop)
    (R : SCPEnvelope → Prop) (inner : Prop)
    {E : Fault → Slot → Prop} :
    wp sendLatestEnvelope (fun _ s' => Path node V F R inner s s' ∧
      s'.mCurrentMessageLevel = s.mCurrentMessageLevel ∧ s'.ballots = s.ballots ∧
      externalized s'.log = externalized s.log) E s := by
  unfold sendLatestEnvelope record
  simp only [wp_bind, wp_get]
  split
  · exact ⟨Path.refl s, rfl, rfl, rfl⟩
  · rename_i last hlast
    refine (wp_ite _ _).mpr ⟨fun hsend => ?_, fun _ => ⟨Path.refl s, rfl, rfl, rfl⟩⟩
    obtain ⟨_, _, hemit⟩ := hsend
    simp only [wp_bind, wp_set, wp_modify]
    exact ⟨Path.single (.send last hlast hemit), rfl, rfl, by simp [externalized]⟩

/-- What is known when the node's own envelope is processed: a change has been made to the slot
`s` at rest, and its statement signed but not recorded yet. -/
structure Emitting (node : Node) (V : Value → Prop) (F inner : Prop) (s t : Slot) (ch : Change)
    (env : SCPEnvelope) : Prop where
  inside : inner → 1 ≤ t.mCurrentMessageLevel
  rest : Rest node V F s
  guard : Guard node V F s ch
  ballots : t.ballots = ch.apply s.ballots
  ok : t.ballots.Ok
  statement : ∃ pledges, node.pledgesOf t.ballots = some pledges ∧
    env = node.createEnvelope pledges
  envelopes : t.mLatestEnvelopes = s.mLatestEnvelopes
  new : s.mLatestEnvelopes[node.nodeID]? ≠ some env
  last : t.mLastEnvelope = s.mLastEnvelope
  lastEmit : t.mLastEnvelopeEmit = s.mLastEnvelopeEmit
  composite : t.mLatestCompositeCandidate = s.mLatestCompositeCandidate
  level : t.mCurrentMessageLevel = s.mCurrentMessageLevel
  log : EmitLog s t env

/-- A change is published, and a path follows. -/
def AfterPublish (node : Node) (V : Value → Prop) (F : Prop) (R : SCPEnvelope → Prop)
    (inner : Prop) (s s' : Slot) (ch : Change) :
    Prop :=
  ∃ t env, node.Published s t ch env ∧ Path node V F R inner t s' ∧
    s'.mCurrentMessageLevel = s.mCurrentMessageLevel ∧
    (t.mPhase = .EXTERNALIZE → s'.ballots = t.ballots ∧
      externalized s'.log = externalized t.log)

theorem AfterPublish.path {ch : Change} (h : AfterPublish node V F R inner s t ch)
    (hbump : inner → ∀ newb, ch ≠ .bump newb) (hg : Guard node V F s ch) :
    Path node V F R inner s t := by
  obtain ⟨u, env, hp, hpath, -⟩ := h
  exact Path.head (.publish ch env hbump hg hp) hpath

/-- What may be assumed of the processing of the node's own envelopes. -/
def SelfSpec (node : Node) (V : Value → Prop) (F : Prop) (R : SCPEnvelope → Prop)
    (self : SelfProcess) : Prop :=
  ∀ (inner : Prop) (s t : Slot) (ch : Change) (env : SCPEnvelope),
    Emitting node V F inner s t ch env →
    wp (self env)
      (fun r s' => r = .VALID ∧ AfterPublish node V F R inner s s' ch ∨
        r = .INVALID ∧ Frame t s' ∧ s'.ballots = t.ballots ∧
          ¬ node.Processable t.log.length t.toBallotProtocol env.statement)
      (CrashFrom node V F R s) t

theorem CrashFrom.publish {e : Fault} {ch : Change} (hg : Guard node V F s ch)
    (h : node.PublishCrash s e t ch) : CrashFrom node V F R s e t :=
  ⟨s, Path.refl s, .publish ch hg h⟩

/-- Recording what is recorded already changes nothing. -/
theorem insert_of_getElem? {envs : EnvelopeMap} {n : NodeID} {env : SCPEnvelope}
    (h : envs[n]? = some env) : envs.insert n env = envs := by
  refine Std.ExtTreeMap.ext_getElem? fun m => ?_
  by_cases hn : n = m
  · rw [← hn, getElem?_insert_self, h]
  · rw [getElem?_insert_ne hn]

/-- A fault at rest, with nothing changed but quiet events. -/
theorem CrashFrom.rest_of_frame {e : Fault} (hw : Frame s t) (hb : t.ballots = s.ballots)
    (hbad : e ≠ .badState) (hnull : e ≠ .nullDeref .createStatement)
    (hinv : e ≠ .checkInvariants) : CrashFrom node V F R s e t := by
  have hphase : t.mPhase = s.mPhase := congrArg Ballots.phase hb
  have hcommit : t.mCommit = s.mCommit := congrArg Ballots.c hb
  exact ⟨s, Path.refl s, .rest hphase hcommit hw.log hbad hnull fun h => absurd h hinv⟩

theorem CrashFrom.rest {e : Fault} (hbad : e ≠ .badState) (hnull : e ≠ .nullDeref .createStatement)
    (hinv : e ≠ .checkInvariants) : CrashFrom node V F R s e s :=
  .rest_of_frame (Frame.refl s) rfl hbad hnull hinv

/-- What was published stays in the log. -/
theorem Emitting.mem_log {ch : Change} {env env' : SCPEnvelope}
    (h : Emitting node V F inner s t ch env) {w s' : Slot} (hpub : node.Published s w ch env')
    (hpath : Path node V F R inner w s') :
    ∃ bp, Event.emitCurrentStateStatement bp env ∈ s'.log := by
  have hbal : w.ballots = t.ballots := hpub.ballots.trans h.ballots.symm
  obtain ⟨pledges, hpl, rfl⟩ := h.statement
  obtain ⟨pledges', hpl', rfl⟩ := hpub.statement
  obtain rfl : pledges = pledges' := by
    rw [hbal, hpl] at hpl'
    exact Option.some.inj hpl'
  obtain ⟨u, v, bp, -, hlog, hq, -⟩ := hpub.log
  exact ⟨bp, hpath.log_subset (hq.isPrefix.subset (by simp [hlog]))⟩

/-- More quiet events may follow. -/
theorem Emitting.quiet {ch : Change} {env : SCPEnvelope} (h : Emitting node V F inner s t ch env)
    {w : Slot} (hw : Frame t w) (hb : w.ballots = t.ballots) :
    Emitting node V F inner s w ch env where
  inside := fun hi => hw.level.symm ▸ h.inside hi
  rest := h.rest
  guard := h.guard
  ballots := hb.trans h.ballots
  ok := hb ▸ h.ok
  statement := hb ▸ h.statement
  envelopes := hw.envelopes.trans h.envelopes
  new := h.new
  last := hw.last.trans h.last
  lastEmit := hw.lastEmit.trans h.lastEmit
  composite := hw.composite.trans h.composite
  level := hw.level.trans h.level
  log := h.log.quiet hw.log hb

section Emit

variable {ch : Change} {pledges : Pledges}

/-- The slot when the statement of a change is ready. -/
def Slot.emitting (t : Slot) (env : SCPEnvelope) : Slot :=
  t.logging (.emitCurrentStateStatement t.toBallotProtocol env)

/-- A change whose statement has been recorded already is published. -/
theorem Changed.published (hch : Changed s t ch) (hok : t.ballots.Ok)
    (hpl : node.pledgesOf t.ballots = some pledges)
    (hsame : s.mLatestEnvelopes[node.nodeID]? = some (node.createEnvelope pledges)) :
    node.Published s (t.emitting (node.createEnvelope pledges)) ch (node.createEnvelope pledges) where
  ballots := hch.ballots
  ok := hok
  statement := ⟨pledges, hpl, rfl⟩
  envelopes := by
    rw [insert_of_getElem? hsame]
    exact hch.envelopes
  processable := Or.inl hsame
  last := hch.last
  lastEmit := hch.lastEmit
  composite := hch.composite
  log := ⟨t, _, t.toBallotProtocol, hch.log, rfl, QuietLog.refl _, rfl, hch.envelopes⟩

/-- A change whose statement is new goes to be processed. -/
theorem Changed.emitting (hch : Changed s t ch) (hin : inner → 1 ≤ s.mCurrentMessageLevel)
    (hrest : Rest node V F s) (hg : Guard node V F s ch) (hok : t.ballots.Ok)
    (hpl : node.pledgesOf t.ballots = some pledges)
    (hnew : s.mLatestEnvelopes[node.nodeID]? ≠ some (node.createEnvelope pledges)) :
    Emitting node V F inner s (t.emitting (node.createEnvelope pledges)) ch
      (node.createEnvelope pledges) where
  inside := fun hi => hch.level.symm ▸ hin hi
  rest := hrest
  guard := hg
  ballots := hch.ballots
  ok := hok
  statement := ⟨pledges, hpl, rfl⟩
  envelopes := hch.envelopes
  new := hnew
  last := hch.last
  lastEmit := hch.lastEmit
  composite := hch.composite
  level := hch.level
  log := ⟨t, _, t.toBallotProtocol, hch.log, rfl, QuietLog.refl _, rfl, hch.envelopes⟩

/-- `emitCurrentStateStatement` after a change publishes it. -/
theorem emitCurrentStateStatement_spec {self : SelfProcess} (hself : SelfSpec node V F R self)
    (hin : inner → 1 ≤ s.mCurrentMessageLevel) (hrest : Rest node V F s)
    (hg : Guard node V F s ch) (hch : Changed s t ch) :
    wp (node.emitCurrentStateStatement self) (fun _ s' => AfterPublish node V F R inner s s' ch)
      (CrashFrom node V F R s) t := by
  unfold Node.emitCurrentStateStatement
  simp only [wp_bind, wp_get]
  refine createStatement_spec (fun hok pledges hpl => ?_) (fun hbad => ?_) (fun hok hnull => ?_)
  · simp only [record, wp_modify, wp_ite, wp_pure]
    refine ⟨fun hsame => ?_, fun hnew => ?_⟩
    · -- the same envelope is recorded already
      rw [hch.envelopes] at hsame
      exact ⟨_, _, hch.published hok hpl hsame, Path.refl _, hch.level, fun _ => ⟨rfl, rfl⟩⟩
    · rw [hch.envelopes] at hnew
      have hemit : Emitting node V F inner s _ ch _ := hch.emitting hin hrest hg hok hpl hnew
      simp only [wp_bind]
      refine wp_mono (hself inner s _ ch _ hemit) (fun r s' hr => ?_) (fun _ _ h => h)
      rcases hr with ⟨rfl, w, env, hpub, hpath, hlev, hext⟩ | ⟨rfl, hw, hb, hnot⟩
      · simp only [if_true, wp_bind, wp_get, wp_ite, wp_set, wp_pure]
        refine ⟨fun hsend => ?_, fun _ => ⟨w, env, hpub, hpath, hlev, hext⟩⟩
        obtain ⟨_, hnewer⟩ := hsend
        refine wp_mono (sendLatestEnvelope_spec node V F R inner) (fun _ s'' h => ?_) (fun _ _ h => h)
        obtain ⟨hsend, hlev', hb', hx'⟩ := h
        have hrem : Step node V F R inner s' { s' with mLastEnvelope := some _ } :=
          .remember (node.createEnvelope pledges) (fun last hlast => by simpa [hlast] using hnewer)
            (hemit.mem_log hpub hpath)
        refine ⟨w, env, hpub, (hpath.trans (Path.single hrem)).trans hsend, hlev'.trans hlev,
          fun hph => ⟨hb'.trans (hext hph).1, hx'.trans (hext hph).2⟩⟩
      · simp only [reduceCtorEq, if_false, wp_throw]
        have hquiet := hemit.quiet hw hb
        have hpl' : node.pledgesOf s'.ballots = some pledges := hb ▸ hpl
        exact CrashFrom.publish hg
          { ballots := hquiet.ballots
            envelopes := hquiet.envelopes
            checkInvariants := fun h => by cases h
            log := Or.inr ⟨hquiet.ok, pledges, hpl', hquiet.log⟩
            null := fun h => by cases h
            badState := fun _ => ⟨hquiet.ok, pledges, hpl', hquiet.new, _,
              hemit.log.log_isPrefix.length_le, fun hp => hnot (hp.of_same hb hw.envelopes)⟩ }
  · exact CrashFrom.publish hg
      { ballots := hch.ballots
        envelopes := hch.envelopes
        checkInvariants := fun _ => hbad
        log := Or.inl hch.log
        null := fun h => by cases h
        badState := fun h => by cases h }
  · exact CrashFrom.publish hg
      { ballots := hch.ballots
        envelopes := hch.envelopes
        checkInvariants := fun h => by cases h
        log := Or.inl hch.log
        null := fun _ => ⟨hok, hnull⟩
        badState := fun h => by cases h }

end Emit

/-! ## The current ballot -/

theorem bumpToBallot_spec {E : Fault → Slot → Prop} {ballot : SCPBallot} {check : Bool}
    (hphase : s.mPhase ≠ .EXTERNALIZE)
    (hcheck : check = true → ∀ b, s.mCurrentBallot = some b → b ≤ ballot) :
    wp (bumpToBallot ballot check) (fun _ s' => Frame s s' ∧
      s'.ballots = { s.ballots with b := some ballot }) E s := by
  have hreq : (!check || s.mCurrentBallot.all fun b => decide (0 ≤ compareBallots ballot b)) =
      true := by
    cases check with
    | false => rfl
    | true =>
      cases hb : s.mCurrentBallot with
      | none => rfl
      | some b => simpa using hcheck rfl b hb
  unfold bumpToBallot startBallotProtocolTimer record
  simp only [wp_bind, wp_get, wp_require, wp_set, hreq]
  refine ⟨fun _ => ⟨fun _ => ?_, by simp⟩, fun h => absurd hphase (by simpa using h)⟩
  refine (wp_ite _ _).mpr ⟨fun _ => ?_, fun _ => ?_⟩
  · exact ⟨⟨rfl, rfl, rfl, rfl, rfl, QuietLog.of_log_eq rfl⟩, rfl⟩
  · simp only [wp_bind, wp_get, wp_deref, wp_modify, Option.some.injEq, reduceCtorEq,
      false_imp_iff, and_true]
    rintro b rfl
    exact ⟨⟨rfl, rfl, rfl, rfl, rfl, QuietLog.append rfl trivial⟩, rfl⟩

theorem updateCurrentIfNeeded_spec {E : Fault → Slot → Prop} {h : SCPBallot}
    (hphase : s.mPhase ≠ .EXTERNALIZE) (hh : s.mHighBallot = some h) :
    wp updateCurrentIfNeeded (fun _ s' => Frame s s' ∧
      s'.ballots = { s.ballots with b := raiseTo s.mCurrentBallot h }) E s := by
  unfold updateCurrentIfNeeded
  simp only [wp_bind, wp_get, wp_deref, hh, Option.some.injEq, reduceCtorEq, false_imp_iff,
    and_true]
  rintro _ rfl
  refine (wp_ite _ _).mpr ⟨fun hall => ?_, fun hall => ?_⟩
  · have hlt : ∀ b, s.mCurrentBallot = some b → b ≤ h := by
      intro b hb
      rw [hb] at hall
      exact (by simpa using hall : b < h).le
    refine wp_mono (bumpToBallot_spec hphase fun _ => hlt) (fun _ s' hs' => ?_) fun _ _ h => h
    refine ⟨hs'.1, hs'.2.trans ?_⟩
    have : raiseTo s.mCurrentBallot h = some h := if_pos (by simpa using hall)
    rw [this]
  · refine ⟨Frame.refl s, ?_⟩
    have : raiseTo s.mCurrentBallot h = s.mCurrentBallot := if_neg (by simpa using hall)
    rw [this]
    rfl

/-! ## Accept prepared -/

/-- Why the loop went past a candidate in `PREPARE`. -/
def Node.Skipped (node : Node) (s : Slot) (β : SCPBallot) : Prop :=
  (∃ p', s.mPreparedPrime = some p' ∧ β ≤ p') ∨
  (∃ p, s.mPrepared = some p ∧ β ≤ p ∧ β.value = p.value) ∨
  node.federatedAccept (votesToPrepare β) (hasPreparedBallot β) s.mLatestEnvelopes = false

/-- What the loop checks of a candidate before it accepts it. -/
structure Node.Acceptable (node : Node) (s : Slot) (β : SCPBallot) : Prop where
  confirm : s.mPhase = .CONFIRM → ∃ p, s.mPrepared = some p ∧ p ≤ β ∧ p.value = β.value
  prime_lt : ∀ p', s.mPreparedPrime = some p' → p' < β
  not_covered : ∀ p, s.mPrepared = some p → ¬ (β ≤ p ∧ β.value = p.value)
  accepted : node.federatedAccept (votesToPrepare β) (hasPreparedBallot β) s.mLatestEnvelopes = true

theorem skipped_of_not_acceptable {β : SCPBallot} (hphase : s.mPhase = .PREPARE)
    (h : ¬ node.Acceptable s β) : node.Skipped s β := by
  by_contra hnot
  simp only [Node.Skipped, not_or, not_exists, not_and, Bool.not_eq_false] at hnot
  obtain ⟨hprime, hcov, hacc⟩ := hnot
  refine h ⟨fun hc => ?_, fun p' hp' => not_le.mp (hprime p' hp'), fun p hp hle => ?_, hacc⟩
  · rw [hphase] at hc
    cases hc
  · exact hcov p hp hle.1 hle.2

/-- What the loop over the candidates `l` can do: skip them all, or accept the first one that it
does not skip. -/
def Node.AcceptResult (node : Node) (V : Value → Prop) (F : Prop) (R : SCPEnvelope → Prop)
    (l : List SCPBallot)
    (s : Slot) (r : Bool) (s' : Slot) : Prop :=
  (r = false ∧ s' = s ∧ (s.mPhase = .PREPARE → ∀ β ∈ l, node.Skipped s β)) ∨
  (r = true ∧ ∃ ballot, Guard node V F s (.acceptPrepared ballot) ∧
    AfterPublish node V F R True s s' (.acceptPrepared ballot) ∧
    (s.mPhase = .PREPARE → ∀ γ ∈ l, ballot < γ → node.Skipped s γ))

/-! ### What is left to confirm -/

/-- After `attemptPreparedAccept`: nothing the hint leads to is confirmed above `p`, and if
nothing at all is prepared then no candidate can be accepted. -/
structure AcceptDone (node : Node) (F : Prop) (hint : SCPStatement) (s : Slot) : Prop where
  confirmed_le : F → s.mPhase = .PREPARE → ∀ β, node.Confirmed s.toBallotProtocol hint β →
    ∃ p, s.mPrepared = some p ∧ β ≤ p
  prepared : s.mPrepared = none → s.mPhase = .PREPARE →
    (∃ env, s.mLatestEnvelopes[hint.nodeID]? = some env ∧ env.statement = hint) ∧
    ∀ β ∈ getPrepareCandidates s.mLatestEnvelopes hint,
      node.federatedAccept (votesToPrepare β) (hasPreparedBallot β) s.mLatestEnvelopes = false

theorem Sync.own_prepare (h : Sync node s) (hphase : s.mPhase = .PREPARE) {env : SCPEnvelope}
    (henv : s.mLatestEnvelopes[node.nodeID]? = some env) :
    env.statement.pledges = .prepare
      { quorumSetHash := node.qSetHash
        ballot := s.mCurrentBallot.getD {}
        prepared := s.mPrepared
        preparedPrime := s.mPreparedPrime
        nC := (s.mCommit.map SCPBallot.counter).getD 0
        nH := (s.mHighBallot.map SCPBallot.counter).getD 0 } := by
  rcases h with ⟨hn, -⟩ | ⟨pledges, hpl, hown⟩
  · rw [hn] at henv
    cases henv
  · rw [hown] at henv
    obtain rfl := Option.some.inj henv
    simp only [Node.pledgesOf, ballots_phase, hphase, Option.some.injEq] at hpl
    rw [← hpl]
    rfl

/-- A skipped candidate that is confirmed is not above `p`. -/
theorem Node.Skipped.le {β : SCPBallot} (h : node.Skipped s β) (hprime : s.ballots.PrimeBelow)
    (hr : node.federatedRatify (hasPreparedBallot β) s.mLatestEnvelopes = true) :
    ∃ p, s.mPrepared = some p ∧ β ≤ p := by
  rcases h with ⟨p', hp', hle⟩ | ⟨p, hp, hle, -⟩ | hacc
  · obtain ⟨p, hp, hle', -⟩ := hprime p' hp'
    exact ⟨p, hp, hle.trans hle'⟩
  · exact ⟨p, hp, hle⟩
  · rw [federatedAccept_of_ratify hr] at hacc
    cases hacc

/-- If the node itself has prepared `β` then `p` is at least `β`. -/
theorem Sync.le_of_hasPrepared (h : Sync node s) (hphase : s.mPhase = .PREPARE)
    (hprime : s.ballots.PrimeBelow) {env : SCPEnvelope} {β : SCPBallot}
    (henv : s.mLatestEnvelopes[node.nodeID]? = some env)
    (hβ : hasPreparedBallot β env.statement = true) : ∃ p, s.mPrepared = some p ∧ β ≤ p := by
  simp only [hasPreparedBallot, h.own_prepare hphase henv, Bool.or_eq_true,
    Option.any_eq_true] at hβ
  rcases hβ with ⟨p, hp, hle⟩ | ⟨p', hp', hle⟩
  · exact ⟨p, hp, (by simpa using hle : β ≤ p ∧ _).1⟩
  · obtain ⟨p, hp, hle', -⟩ := hprime p' hp'
    exact ⟨p, hp, (by simpa using hle : β ≤ p' ∧ _).1.trans hle'⟩

/-- What is confirmed above `p` after inner steps was confirmed before them: the node's own
statement has nothing to do with it. -/
theorem confirmed_before {hint : SCPStatement} {β : SCPBallot} (hF : F)
    (hsync : Sync node s) (hsync' : Sync node t) (hprime : t.ballots.PrimeBelow)
    (hrel : InnerRel node F s t) (hphase : t.mPhase = .PREPARE) (hp : t.mPrepared ≠ none)
    (hconf : node.Confirmed t.toBallotProtocol hint β)
    (habove : ¬ ∃ p, t.mPrepared = some p ∧ β ≤ p) :
    node.Confirmed s.toBallotProtocol hint β := by
  obtain ⟨p, htp⟩ := Option.ne_none_iff_exists'.mp hp
  refine ⟨?_, federatedRatify_mono (fun n env henv hβ => ⟨?_, hβ⟩) hconf.2⟩
  · obtain ⟨τ, hτ, n, env, henv, hc⟩ := mem_getPrepareCandidates.mp hconf.1
    refine mem_getPrepareCandidates.mpr ⟨τ, hτ, ?_⟩
    by_cases hn : n = node.nodeID
    · -- a candidate from the node's own statement is its current ballot
      subst hn
      have hpl := hsync'.own_prepare hphase henv
      have hmem : β = t.mCurrentBallot.getD {} := by
        simp only [candidatesFrom, hpl, List.mem_filter, List.mem_append, List.mem_singleton,
          Option.mem_toList] at hc
        rcases hc.1 with (h | h) | h
        · exact h
        · exact absurd ⟨β, h, le_rfl⟩ habove
        · obtain ⟨q, hq, hle, -⟩ := hprime β h
          exact absurd ⟨q, hq, hle⟩ habove
      rcases hrel.current hF hphase with hb | ⟨b, q, hb, hq, hle⟩
      · cases hsb : s.mCurrentBallot with
        | none =>
          rw [hb, hsb] at hmem
          exact absurd ⟨p, htp, hmem ▸ SCPBallot.default_le p⟩ habove
        | some b =>
          rw [hb, hsb] at hmem
          rcases hsync with ⟨-, hfresh⟩ | ⟨pledges, hpl', hown⟩
          · have := congrArg Ballots.b hfresh
            simp [hsb] at this
          · have hpl'' := Sync.own_prepare (Or.inr ⟨pledges, hpl', hown⟩) (hrel.phase hphase) hown
            refine ⟨node.nodeID, _, hown, ?_⟩
            obtain ⟨hle, hv⟩ := candidatesFrom_le hc
            simp only [candidatesFrom, hpl'', hsb, List.mem_filter]
            refine ⟨by simp [hmem], by simp [hle, hv]⟩
      · rw [hb] at hmem
        exact absurd ⟨q, hq, hmem ▸ hle⟩ habove
    · exact ⟨n, env, by rw [← hrel.others n hn]; exact henv, hc⟩
  · by_cases hn : n = node.nodeID
    · subst hn
      exact absurd (hsync'.le_of_hasPrepared hphase hprime henv hβ) habove
    · rw [← hrel.others n hn]
      exact henv

/-- Accepting `ballot` puts `p` at or above it. -/
theorem Guard.le_prepared {ballot : SCPBallot} (hg : Guard node V F s (.acceptPrepared ballot)) :
    ∃ q, (Change.apply (.acceptPrepared ballot) s.ballots).p = some q ∧ ballot ≤ q := by
  obtain ⟨-, -, hprime, hcov, -⟩ := hg
  simp only [Change.apply, ballots_p, ballots_p']
  rcases setPrepared_cases hprime hcov with ⟨-, h⟩ | ⟨q, -, -, h⟩ | ⟨q, -, hlt, -, h⟩
  · exact ⟨ballot, by rw [h], le_rfl⟩
  · exact ⟨ballot, by rw [h], le_rfl⟩
  · exact ⟨q, by rw [h], hlt.le⟩

theorem Node.AcceptResult.done {hint : SCPStatement} {r : Bool} {env : SCPEnvelope}
    (h : node.AcceptResult V F R (candidatesDesc s.mLatestEnvelopes hint) s r t)
    (hrest : Rest node V F s) (hrec : s.mLatestEnvelopes[hint.nodeID]? = some env)
    (hst : env.statement = hint) : AcceptDone node F hint t := by
  rcases h with ⟨-, rfl, hskip⟩ | ⟨-, ballot, hg, hafter, hskip⟩
  · refine ⟨fun _ hphase β hconf => ?_, fun hnone hphase => ⟨⟨env, hrec, hst⟩, fun β hβ => ?_⟩⟩
    · exact (hskip hphase β (mem_candidatesDesc.mpr hconf.1)).le hrest.prime hconf.2
    · rcases hskip hphase β (mem_candidatesDesc.mpr hβ) with ⟨p', hp', -⟩ | ⟨p, hp, -⟩ | hacc
      · obtain ⟨p, hp, -⟩ := hrest.prime p' hp'
        rw [ballots_p, hnone] at hp
        cases hp
      · rw [hnone] at hp
        cases hp
      · exact hacc
  · have hpath := hafter.path (fun _ _ h => by cases h) hg
    have hrest' := hpath.rest hrest
    -- `p` has reached the accepted ballot
    obtain ⟨p, hp, hle⟩ : ∃ p, t.mPrepared = some p ∧ ballot ≤ p := by
      obtain ⟨u, env', hpub, htail, -⟩ := hafter
      obtain ⟨q, hq, hle⟩ := hg.le_prepared
      rw [← hpub.ballots] at hq
      obtain ⟨p, hp, hle'⟩ := htail.innerRel.prepared q hq
      exact ⟨p, hp, hle.trans hle'⟩
    refine ⟨fun hF hphase β hconf => ?_, fun hnone => ?_⟩
    · by_contra habove
      have hconf' := confirmed_before hF (hrest.sync hF) (hrest'.sync hF) hrest'.prime
        hpath.innerRel hphase (by simp [hp]) hconf habove
      rcases lt_or_ge ballot β with hlt | hge
      · obtain ⟨q, hq, hqle⟩ := (hskip (hpath.innerRel.phase hphase) β
          (mem_candidatesDesc.mpr hconf'.1) hlt).le hrest.prime hconf'.2
        obtain ⟨q', hq', hle'⟩ := hpath.innerRel.prepared q hq
        exact habove ⟨q', hq', hqle.trans hle'⟩
      · exact habove ⟨p, hp, hge.trans hle⟩
    · rw [hp] at hnone
      cases hnone

/-! ## Rules for the attempts

What a function does up to the emission that ends it. Each rule leaves to its user what is to be
shown of the emission, and of the faults the function itself can raise. -/

section Rules

variable {self : SelfProcess} {Q : Bool → Slot → Prop} {E : Fault → Slot → Prop}

theorem setPreparedAccept_rule {ballot : SCPBallot} (hphase : s.mPhase ≠ .EXTERNALIZE)
    (hcand : ∃ hint, ballot ∈ getPrepareCandidates s.mLatestEnvelopes hint)
    (hacc : node.Acceptable s ballot)
    (hemit : ∀ t, Guard node V F s (.acceptPrepared ballot) →
      Changed s t (.acceptPrepared ballot) →
      wp (node.emitCurrentStateStatement self) (fun _ s' => Q true s') E t)
    (hassert : ∀ t, t.mPhase = s.mPhase → t.mCommit = s.mCommit → t.log = s.log →
      E (.dbgAssert .clearCommitAfterPrepare) t) :
    wp (node.setPreparedAccept self ballot) Q E s := by
  have hprime := hacc.prime_lt
  have hcov := hacc.not_covered
  have hwork : (setPrepared ballot s.mPrepared s.mPreparedPrime).2.2 = true := by
    rcases setPrepared_cases hprime hcov with ⟨-, h⟩ | ⟨q, -, -, h⟩ | ⟨q, -, -, -, h⟩ <;> rw [h]
  rcases hset : setPrepared ballot s.mPrepared s.mPreparedPrime with ⟨p, p', w⟩
  obtain rfl : w = true := by rwa [hset] at hwork
  unfold Node.setPreparedAccept record
  simp only [wp_bind, wp_get, hset, wp_set, wp_require, wp_modify, Bool.true_or, if_true, wp_pure]
  refine ⟨fun hclear => ?_, fun hclear => hassert _ rfl rfl rfl⟩
  have hguard : Guard node V F s (.acceptPrepared ballot) := by
    refine ⟨hphase, hacc.confirm, hprime, hcov, hcand, fun hne => ?_⟩
    simp only [Change.apply, ballots_p, ballots_p', ballots_h, ballots_c, hset]
    simp only [hne, decide_false, Bool.or_false, Bool.not_eq_true', Bool.and_eq_false_iff] at hclear
    rcases hclear with hc | hc
    · rw [Option.isSome_eq_false_iff, Option.isNone_iff_eq_none] at hc
      simp [hc]
    · rw [if_neg]
      simpa [clears] using hc
  refine hemit _ hguard ⟨⟨rfl, rfl, rfl, rfl, rfl, QuietLog.append rfl trivial⟩, ?_⟩
  simp only [Change.apply, ballots_p, ballots_p', ballots_h, ballots_c, hset]
  refine Ballots.ext rfl rfl rfl rfl rfl ?_
  show (if (s.mCommit.isSome && clears s.mHighBallot p p') = true then none else s.mCommit) =
    if clears s.mHighBallot p p' = true then none else s.mCommit
  cases s.mCommit <;> simp

theorem tryBallot_rule {ballot : SCPBallot} {next : SlotM Bool}
    (hconfirm : s.mPhase = .CONFIRM →
      ∃ p, s.mPrepared = some p ∧ p ≤ ballot ∧ p.value = ballot.value)
    (hset : node.Acceptable s ballot → wp (node.setPreparedAccept self ballot) Q E s)
    (hnext : ¬ node.Acceptable s ballot → wp next Q E s) :
    wp (Node.acceptLoop.tryBallot node self s ballot next) Q E s := by
  unfold Node.acceptLoop.tryBallot
  refine (wp_ite _ _).mpr ⟨fun h => hnext fun hacc => ?_, fun hprime => ?_⟩
  · obtain ⟨p', hp', hle⟩ := (Option.any_eq_true _ _).mp h
    exact absurd (hacc.prime_lt p' hp') (not_lt.mpr (by simpa using hle))
  refine (wp_ite _ _).mpr ⟨fun h => hnext fun hacc => ?_, fun hcov => ?_⟩
  · obtain ⟨p, hp, hle⟩ := (Option.any_eq_true _ _).mp h
    exact hacc.not_covered p hp (by simpa using hle)
  refine (wp_ite _ _).mpr ⟨fun hacc => hset ⟨hconfirm, ?_, ?_, hacc⟩, fun hacc => hnext fun h => ?_⟩
  · intro p' hp'
    rw [hp'] at hprime
    simpa using hprime
  · intro p hp
    rw [hp] at hcov
    simpa using hcov
  · exact hacc h.accepted

/-- The loop takes the first candidate that can be accepted. -/
theorem acceptLoop_rule {l : List SCPBallot} (hl : l.Pairwise (· > ·))
    (hnone : (∀ γ ∈ l, ¬ node.Acceptable s γ) → Q false s)
    (hset : ∀ β ∈ l, node.Acceptable s β → (∀ γ ∈ l, β < γ → ¬ node.Acceptable s γ) →
      wp (node.setPreparedAccept self β) Q E s)
    (hnull : E (.nullDeref .attemptPreparedAccept) s)
    (hassert : E (.dbgAssert .acceptedIncompatible) s) :
    wp (node.acceptLoop self l) Q E s := by
  induction l with
  | nil => exact hnone (by simp)
  | cons ballot rest ih =>
    obtain ⟨hhead, hrest⟩ := List.pairwise_cons.mp hl
    have hnext (hnot : ¬ node.Acceptable s ballot) : wp (node.acceptLoop self rest) Q E s := by
      refine ih hrest (fun hall => hnone fun γ hγ => ?_) fun β hβ hacc hfirst =>
        hset β (List.mem_cons_of_mem _ hβ) hacc fun γ hγ hlt => ?_
      · rcases List.mem_cons.mp hγ with rfl | hγ
        · exact hnot
        · exact hall γ hγ
      · rcases List.mem_cons.mp hγ with rfl | hγ
        · exact hnot
        · exact hfirst γ hγ hlt
    have htry (hconfirm : s.mPhase = .CONFIRM →
        ∃ p, s.mPrepared = some p ∧ p ≤ ballot ∧ p.value = ballot.value) :
        wp (Node.acceptLoop.tryBallot node self s ballot (node.acceptLoop self rest)) Q E s := by
      refine tryBallot_rule hconfirm (fun hacc => ?_) hnext
      refine hset ballot List.mem_cons_self hacc fun γ hγ hlt => ?_
      rcases List.mem_cons.mp hγ with rfl | hγ
      · exact absurd hlt (lt_irrefl _)
      · exact absurd hlt (not_lt_of_gt (hhead γ hγ))
    unfold Node.acceptLoop
    simp only [wp_bind, wp_get]
    refine (wp_ite _ _).mpr ⟨fun hconf => ?_, fun hconf => htry fun h => absurd h hconf⟩
    simp only [wp_bind, wp_deref]
    refine ⟨fun p hp => (wp_ite _ _).mpr ⟨fun hless => hnext fun hacc => ?_, fun hless => ?_⟩,
      fun _ => hnull⟩
    · obtain ⟨q, hq, hle⟩ := hacc.confirm hconf
      obtain rfl : p = q := Option.some.inj (hp.symm.trans hq)
      rw [areBallotsLessAndCompatible_iff.mpr hle] at hless
      cases hless
    · simp only [wp_bind, wp_deref, wp_require]
      refine ⟨fun c _ => ⟨fun _ => htry fun _ => ⟨p, hp, by simpa using hless⟩, fun _ => hassert⟩,
        fun _ => hnull⟩

theorem setPreparedConfirmed_rule {newC newH : SCPBallot}
    (hg : Guard node V F s (.confirmPrepared newC newH))
    (hemit : ∀ t, Changed s t (.confirmPrepared newC newH) →
      wp (node.emitCurrentStateStatement self) (fun _ s' => Q true s') E t) :
    wp (node.setPreparedConfirmed self newC newH) Q E s := by
  obtain ⟨hphase, -, ⟨hint, -, hnewH, hnewC⟩, -⟩ := id hg
  have hraise : (s.mHighBallot.all fun h => decide (0 < compareBallots newH h)) = true := by
    cases hh : s.mHighBallot with
    | none => rfl
    | some h => simpa using hnewH.above h hh
  have hset : (!decide (newC.counter ≠ 0) || s.mCommit.isNone) = true := by
    by_cases hc : newC.counter ≠ 0
    · simp [(hnewC hc).1.commit]
    · simp [hc]
  unfold Node.setPreparedConfirmed record
  simp only [wp_bind, wp_get, wp_set, wp_require, wp_modify, hraise, hset, if_true, Bool.true_or,
    true_imp_iff, reduceCtorEq, false_imp_iff, and_true]
  refine wp_mono (updateCurrentIfNeeded_spec ?_ rfl) (fun _ t ht => ?_) fun _ _ h => h
  · show s.mPhase ≠ .EXTERNALIZE
    simp [hphase]
  obtain ⟨hframe, hballots⟩ := ht
  simp only [wp_pure]
  refine hemit _ ⟨Frame.trans ?_ (hframe.trans (Frame.logging t _ trivial)), ?_⟩
  · exact ⟨rfl, rfl, rfl, rfl, rfl, QuietLog.of_log_eq rfl⟩
  · rw [Slot.logging_toBallotProtocol, hballots]
    refine Ballots.ext rfl rfl rfl rfl rfl ?_
    by_cases hc : newC.counter = 0 <;> simp [Change.apply, BallotProtocol.ballots, hc]

/-- What the search for `newC` finds. -/
theorem lookForNewC_spec {hint : SCPStatement} {newH : SCPBallot} {below : List SCPBallot}
    (hfind : findNewH s.mHighBallot (node.isRatified s.toBallotProtocol)
      (candidatesDesc s.mLatestEnvelopes hint) = some (newH, below))
    (hc : (node.lookForNewC s.toBallotProtocol newH below).counter ≠ 0) :
    MayCommit s.toBallotProtocol newH ∧ node.IsNewC s.toBallotProtocol hint newH
      (node.lookForNewC s.toBallotProtocol newH below) := by
  have hdesc : (newH :: below).Pairwise (· > ·) :=
    (candidatesDesc_pairwise s.mLatestEnvelopes hint).sublist (findNewH_sublist hfind)
  obtain ⟨-, -, -, -, hbelow⟩ := findNewH_spec (candidatesDesc_pairwise _ _) hfind
  have hrun : ∀ β, InRun (s.mCurrentBallot.getD {}) (node.isRatified s.toBallotProtocol)
      (newH :: below) β ↔ node.InCommitRun s.toBallotProtocol hint newH β := by
    intro β
    constructor
    · rintro ⟨hβ, hb, hall⟩
      obtain ⟨hβ, hle⟩ := (hbelow β).mp hβ
      refine ⟨mem_candidatesDesc.mp hβ, hle, hb, fun γ hγ hβγ hγle => ⟨hγ, ?_⟩⟩
      exact hall γ ((hbelow γ).mpr ⟨mem_candidatesDesc.mpr hγ, hγle⟩) hβγ
    · rintro ⟨hβ, hle, hb, hall⟩
      refine ⟨(hbelow β).mpr ⟨mem_candidatesDesc.mpr hβ, hle⟩, hb, fun γ hγ hβγ => ?_⟩
      obtain ⟨hγ, hγle⟩ := (hbelow γ).mp hγ
      exact (hall γ (mem_candidatesDesc.mp hγ) hβγ hγle).2
  unfold Node.lookForNewC at hc ⊢
  split_ifs at hc ⊢ with hmay
  · obtain ⟨hcommit, hprep, hprime⟩ := hmay
    refine ⟨⟨hcommit, fun p hp hless => ?_, fun p' hp' hless => ?_⟩, ?_⟩
    · simp [hp, areBallotsLessAndIncompatible_iff.mpr hless] at hprep
    · simp [hp', areBallotsLessAndIncompatible_iff.mpr hless] at hprime
    · rcases findNewC_spec hdesc {} with ⟨heq, -⟩ | ⟨hin, hleast⟩
      · rw [heq] at hc
        exact absurd rfl hc
      · exact ⟨(hrun _).mp hin, fun β hβ => hleast β ((hrun β).mpr hβ)⟩
  · exact absurd rfl hc

theorem attemptPreparedConfirmed_rule {hint : SCPStatement}
    (hle : F → s.mPhase = .PREPARE → ∀ β, node.Confirmed s.toBallotProtocol hint β →
      ∃ p, s.mPrepared = some p ∧ β ≤ p)
    (hskip : Q false (s.logging (.attemptPreparedConfirmed s.toBallotProtocol hint)))
    (hset : ∀ newC newH,
      Guard node V F (s.logging (.attemptPreparedConfirmed s.toBallotProtocol hint))
        (.confirmPrepared newC newH) → s.mPrepared ≠ none →
      node.IsNewH s.toBallotProtocol hint newH →
      wp (node.setPreparedConfirmed self newC newH) Q E
        (s.logging (.attemptPreparedConfirmed s.toBallotProtocol hint))) :
    wp (node.attemptPreparedConfirmed self hint) Q E s := by
  obtain ⟨s₁, hs₁⟩ : ∃ s₁, s₁ = s.logging (.attemptPreparedConfirmed s.toBallotProtocol hint) :=
    ⟨_, rfl⟩
  have hbp : s₁.toBallotProtocol = s.toBallotProtocol := by
    rw [hs₁]
    rfl
  rw [← hs₁] at hskip
  simp only [← hs₁] at hset
  unfold Node.attemptPreparedConfirmed record
  simp only [wp_bind, wp_get, wp_modify, ← hs₁]
  refine (wp_ite _ _).mpr ⟨fun _ => hskip, fun hphase => ?_⟩
  refine (wp_ite _ _).mpr ⟨fun _ => hskip, fun hprep => ?_⟩
  rw [not_not] at hphase
  split
  · exact hskip
  · rename_i newH below hfind
    obtain ⟨hmem, hrat, habove, hhigh, hbelow⟩ :=
      findNewH_spec (candidatesDesc_pairwise _ _) hfind
    have hconf : node.Confirmed s.toBallotProtocol hint newH := ⟨mem_candidatesDesc.mp hmem, hrat⟩
    have hnewH : node.IsNewH s.toBallotProtocol hint newH := by
      refine ⟨hconf, habove, fun β hβ => ?_⟩
      by_contra hlt
      have := hhigh β (mem_candidatesDesc.mpr hβ.1) (not_le.mp hlt)
      simp [hβ.2] at this
    refine hset _ newH ⟨by rw [hbp]; exact hphase, by rw [hbp]; exact hprep, ⟨hint, ?_, ?_, ?_⟩, ?_⟩
      hprep hnewH
    · rw [hbp, hs₁]
      simp
    · rw [hbp]
      exact hnewH
    · rw [hbp]
      exact lookForNewC_spec hfind
    · intro hF
      rw [hbp]
      exact hle hF hphase newH hconf

theorem setAcceptCommit_finish_rule {c h : SCPBallot}
    (hemit : ∀ t, Changed s t (.acceptCommit c h) →
      wp (node.emitCurrentStateStatement self) (fun _ s' => Q true s') E t)
    (hphase : t.mPhase ≠ .EXTERNALIZE) (hh : t.mHighBallot = some h) (hframe : Frame s t)
    (hballots : { t.ballots with b := raiseTo t.mCurrentBallot h } =
      Change.apply (.acceptCommit c h) s.ballots) :
    wp (Node.setAcceptCommit.finish node self h) Q E t := by
  unfold Node.setAcceptCommit.finish record
  simp only [wp_bind, wp_modify, wp_pure]
  refine wp_mono (updateCurrentIfNeeded_spec hphase hh) (fun _ u hu => ?_) fun _ _ h => h
  exact hemit _
    ⟨hframe.trans (hu.1.trans (Frame.logging u _ trivial)), hu.2.trans hballots⟩

theorem setAcceptCommit_rule {c h : SCPBallot} (hg : Guard node V F s (.acceptCommit c h))
    (hemit : ∀ t, Changed s t (.acceptCommit c h) →
      wp (node.emitCurrentStateStatement self) (fun _ s' => Q true s') E t) :
    wp (node.setAcceptCommit self c h) Q E s := by
  have hne : s.mPhase ≠ .EXTERNALIZE := hg.phase_ne
  unfold Node.setAcceptCommit
  simp only [wp_bind, wp_get, wp_set]
  refine (wp_ite _ _).mpr ⟨fun hprep => ?_, fun hprep => ?_⟩
  · simp only [wp_bind, wp_modify]
    refine (wp_ite _ _).mpr ⟨fun hany => ?_, fun hany => ?_⟩
    · simp only [wp_bind, wp_modify]
      refine wp_mono (bumpToBallot_spec (fun h => by cases h) (fun h => by cases h))
        (fun _ u hu => ?_) fun _ _ h => h
      refine setAcceptCommit_finish_rule hemit ?_ ?_ ?_ ?_
      · show u.ballots.phase ≠ _
        rw [hu.2]
        exact fun h => by cases h
      · show u.ballots.h = _
        rw [hu.2]
        rfl
      · have hframe : Frame s u := by
          refine Frame.trans ?_ hu.1
          exact ⟨rfl, rfl, rfl, rfl, rfl, QuietLog.of_log_eq rfl⟩
        exact hframe.trans ⟨rfl, rfl, rfl, rfl, rfl, QuietLog.of_log_eq rfl⟩
      · have halign : alignTo s.mCurrentBallot h = some h := if_pos (by simpa using hany)
        have hb : u.mCurrentBallot = some h := congrArg Ballots.b hu.2
        have hp : u.mPrepared = s.mPrepared := congrArg Ballots.p hu.2
        have hhh : u.mHighBallot = some h := congrArg Ballots.h hu.2
        have hcc : u.mCommit = some c := congrArg Ballots.c hu.2
        have hph : u.mPhase = .CONFIRM := congrArg Ballots.phase hu.2
        simp [Change.apply, hprep, halign, BallotProtocol.ballots, hb, hp, hhh, hcc, hph]
    · simp only [wp_bind, wp_modify]
      refine setAcceptCommit_finish_rule hemit (fun h => by cases h) rfl
        ⟨rfl, rfl, rfl, rfl, rfl, QuietLog.of_log_eq rfl⟩ ?_
      have halign : alignTo s.mCurrentBallot h = s.mCurrentBallot := if_neg (by simpa using hany)
      simp [Change.apply, hprep, halign, BallotProtocol.ballots]
  · refine (wp_ite _ _).mpr ⟨fun _ => ?_, fun hsame => ?_⟩
    · refine setAcceptCommit_finish_rule hemit hne rfl
        ⟨rfl, rfl, rfl, rfl, rfl, QuietLog.of_log_eq rfl⟩ ?_
      simp [Change.apply, hprep, BallotProtocol.ballots]
    · -- in CONFIRM the new h is strictly higher, so something has changed
      have hconf : s.mPhase = .CONFIRM := by
        cases hph : s.mPhase <;> simp_all
      obtain ⟨h₀, hh₀, -, hlt⟩ := hg.2.2.2.2.1 hconf
      simp only [ne_eq, decide_eq_true_eq, not_or, not_not] at hsame
      rw [hsame.1] at hh₀
      obtain rfl := Option.some.inj hh₀
      exact absurd hlt (lt_irrefl _)

/-- The interval that `attemptAcceptCommit` finds for a ballot. -/
def Node.acceptedInterval (node : Node) (envs : EnvelopeMap) (ballot : SCPBallot) : Interval :=
  findExtendedInterval
    (fun cur => node.federatedAccept (votesToCommit ballot cur) (commitPredicate ballot cur) envs)
    (getCommitBoundariesFromStatements envs ballot).toList.reverse (0, 0)

theorem attemptAcceptCommit_rule {hint : SCPStatement} (hskip : Q false s)
    (hnull : E (.nullDeref .attemptAcceptCommit) s)
    (hset : ∀ ballot i, s.mPhase ≠ .EXTERNALIZE → commitBallot hint = some ballot →
      i = node.acceptedInterval s.mLatestEnvelopes ballot → i.1 ≠ 0 →
      (s.mPhase = .CONFIRM →
        ∃ h, s.mHighBallot = some h ∧ ballot.value = h.value ∧ h.counter < i.2) →
      wp (node.setAcceptCommit self ⟨i.1, ballot.value⟩ ⟨i.2, ballot.value⟩) Q E s) :
    wp (node.attemptAcceptCommit self hint) Q E s := by
  unfold Node.attemptAcceptCommit
  simp only [wp_bind, wp_get]
  refine (wp_ite _ _).mpr ⟨fun _ => hskip, fun hext => ?_⟩
  split
  · exact hskip
  · rename_i ballot hb
    have hsearch (hv : s.mPhase = .CONFIRM → ∃ h, s.mHighBallot = some h ∧ ballot.value = h.value) :
        wp (Node.attemptAcceptCommit.search node self s ballot) Q E s := by
      unfold Node.attemptAcceptCommit.search
      simp only
      refine (wp_ite _ _).mpr ⟨fun hne => ?_, fun _ => hskip⟩
      refine (wp_ite _ _).mpr ⟨fun hraise => ?_, fun _ => hskip⟩
      refine hset ballot _ hext hb rfl hne fun hc => ?_
      obtain ⟨h, hh, hv⟩ := hv hc
      rcases hraise with hn | hraise
      · exact absurd hc hn
      · exact ⟨h, hh, hv, by simpa [hh] using hraise⟩
    refine (wp_ite _ _).mpr ⟨fun hconf => ?_, fun hconf => hsearch fun h => absurd h hconf⟩
    simp only [wp_bind, wp_deref]
    refine ⟨fun h hh => ?_, fun _ => hnull⟩
    refine (wp_ite _ _).mpr ⟨fun _ => hskip, fun hcomp => ?_⟩
    exact hsearch fun _ => ⟨h, hh, by simpa using hcomp⟩

theorem setConfirmCommit_rule {c h : SCPBallot} (hg : Guard node V F s (.confirmCommit c h))
    (hemit : ∀ t, Changed s t (.confirmCommit c h) →
      wp (node.emitCurrentStateStatement self)
        (fun _ s' => (∀ commit, s'.mCommit = some commit →
            Q true ((s'.logging .stopNomination).logging (.valueExternalized commit.value))) ∧
          (s'.mCommit = none → E (.nullDeref .externalizedCommit) (s'.logging .stopNomination)))
        E t) :
    wp (node.setConfirmCommit self c h) Q E s := by
  unfold Node.setConfirmCommit record
  simp only [wp_bind, wp_modify, wp_get, wp_deref, wp_pure]
  refine wp_mono (updateCurrentIfNeeded_spec hg.phase_ne rfl) (fun _ u hu => ?_) fun _ _ h => h
  refine hemit _ ⟨?_, congrArg (fun x : Ballots => { x with phase := .EXTERNALIZE }) hu.2⟩
  have hframe : Frame s u := by
    refine Frame.trans ?_ hu.1
    exact ⟨rfl, rfl, rfl, rfl, rfl, QuietLog.of_log_eq rfl⟩
  exact hframe.trans ⟨rfl, rfl, rfl, rfl, rfl, QuietLog.of_log_eq rfl⟩

theorem attemptConfirmCommit_rule {hint : SCPStatement} (hskip : Q false s)
    (hset : ∀ c h, Guard node V F s (.confirmCommit c h) →
      wp (node.setConfirmCommit self c h) Q E s) :
    wp (node.attemptConfirmCommit self hint) Q E s := by
  unfold Node.attemptConfirmCommit
  simp only [wp_bind, wp_get]
  refine (wp_ite _ _).mpr ⟨fun _ => hskip, fun hphase => ?_⟩
  rw [not_not] at hphase
  split
  · rename_i h₀ c₀ hh hc
    split
    · exact hskip
    · split
      · exact hskip
      · rename_i ballot hb
        refine (wp_ite _ _).mpr ⟨fun _ => hskip, fun hcomp => ?_⟩
        refine (wp_ite _ _).mpr ⟨fun hne => ?_, fun _ => hskip⟩
        obtain ⟨hle, hrat⟩ := searchInterval_spec (fun cur =>
          node.federatedRatify (commitPredicate ballot cur) s.mLatestEnvelopes)
          s.mLatestEnvelopes ballot hne
        have hv : ballot.value = c₀.value := by simpa using hcomp
        exact hset _ _ ⟨hphase, hne, hle, rfl, ⟨c₀, h₀, hc, hh, hv.symm⟩, ⟨ballot, _, rfl, hrat⟩⟩
  · exact hskip

end Rules

/-! ## The attempts follow the transition system -/

section Attempts

variable {self : SelfProcess} (hself : SelfSpec node V F R self) (hlevel : 1 ≤ s.mCurrentMessageLevel)
  (hrest : Rest node V F s)

include hself hlevel hrest

/-- Emitting inside an `attempt…` function. -/
theorem emit_inside {ch : Change} (hbump : ∀ newb, ch ≠ .bump newb)
    (hg : Guard node V F s ch) (hch : Changed s t ch) :
    wp (node.emitCurrentStateStatement self)
      (fun _ s' => AfterPublish node V F R True s s' ch ∧ Path node V F R True s s' ∧
        s'.mCurrentMessageLevel = s.mCurrentMessageLevel) (CrashFrom node V F R s) t := by
  refine wp_mono (emitCurrentStateStatement_spec hself (fun _ => hlevel) hrest hg
    hch) (fun _ s' (h : AfterPublish node V F R True s s' ch) => ?_) fun _ _ h => h
  exact ⟨h, h.path (fun _ => hbump) hg, h.choose_spec.choose_spec.2.2.1⟩

theorem acceptLoop_spec {l : List SCPBallot} (hl : l.Pairwise (· > ·))
    (hphase : s.mPhase ≠ .EXTERNALIZE)
    (hcand : ∀ β ∈ l, ∃ hint, β ∈ getPrepareCandidates s.mLatestEnvelopes hint) :
    wp (node.acceptLoop self l) (node.AcceptResult V F R l s) (CrashFrom node V F R s) s := by
  refine acceptLoop_rule hl (fun hnone => Or.inl ⟨rfl, rfl, fun hprep β hβ => ?_⟩)
    (fun β hβ hacc hfirst => setPreparedAccept_rule hphase (hcand β hβ) hacc
      (fun t (hg : Guard node V F s _) hch => ?_) ?_)
    (CrashFrom.rest (by simp) (by simp) (by simp)) (CrashFrom.rest (by simp) (by simp) (by simp))
  · exact skipped_of_not_acceptable hprep (hnone β hβ)
  · refine wp_mono (emit_inside hself hlevel hrest (fun _ h => by cases h) hg hch)
      (fun _ s' h => Or.inr ⟨rfl, β, hg, h.1, fun hprep γ hγ hlt => ?_⟩) fun _ _ h => h
    exact skipped_of_not_acceptable hprep (hfirst γ hγ hlt)
  · intro t hp hc hlog
    refine ⟨s, Path.refl s, .rest hp hc (QuietLog.of_log_eq hlog) ?_ ?_ ?_⟩ <;> simp

theorem attemptPreparedAccept_spec {hint : SCPStatement} {env : SCPEnvelope}
    (hrec : s.mLatestEnvelopes[hint.nodeID]? = some env) (hst : env.statement = hint) :
    wp (node.attemptPreparedAccept self hint)
      (fun _ s' => Path node V F R True s s' ∧
        s'.mCurrentMessageLevel = s.mCurrentMessageLevel ∧ AcceptDone node F hint s')
      (CrashFrom node V F R s) s := by
  unfold Node.attemptPreparedAccept
  simp only [wp_bind, wp_get]
  refine (wp_ite _ _).mpr ⟨fun hext => ?_, fun hext => ?_⟩
  · refine ⟨Path.refl s, rfl, ⟨fun _ h => ?_, fun _ h => ?_⟩⟩ <;> simp [hext] at h
  · refine wp_mono (acceptLoop_spec hself hlevel hrest (candidatesDesc_pairwise _ _) hext
      fun β hβ => ⟨hint, mem_candidatesDesc.mp hβ⟩) (fun r s' h => ?_) fun _ _ h => h
    refine ⟨?_, ?_, h.done hrest hrec hst⟩
    · rcases h with ⟨-, rfl, -⟩ | ⟨-, ballot, hg, hafter, -⟩
      · exact Path.refl _
      · exact hafter.path (fun _ _ h => by cases h) hg
    · rcases h with ⟨-, rfl, -⟩ | ⟨-, ballot, hg, ⟨_, _, _, _, hlev, _⟩, -⟩
      · rfl
      · exact hlev

theorem attemptPreparedConfirmed_spec {hint : SCPStatement} (hdone : AcceptDone node F hint s) :
    wp (node.attemptPreparedConfirmed self hint)
      (fun _ s' => Path node V F R True s s' ∧
        s'.mCurrentMessageLevel = s.mCurrentMessageLevel ∧
        (s.mPrepared = none →
          s' = s.logging (.attemptPreparedConfirmed s.toBallotProtocol hint)))
      (CrashFrom node V F R s) s := by
  have hstep : Step node V F R True s
      (s.logging (.attemptPreparedConfirmed s.toBallotProtocol hint)) := .probe hint
  refine attemptPreparedConfirmed_rule hdone.confirmed_le ⟨Path.single hstep, rfl, fun _ => rfl⟩
    fun newC newH (hg : Guard node V F _ _) hprep _ => setPreparedConfirmed_rule hg fun t hch => ?_
  have hlevel' : 1 ≤ (s.logging (.attemptPreparedConfirmed s.toBallotProtocol
      hint)).mCurrentMessageLevel := hlevel
  refine wp_mono (emit_inside hself hlevel' (hstep.rest hrest) (fun _ h => by cases h) hg hch)
    (fun _ s' h => ?_) fun _ _ h => h.of_path (Path.single hstep)
  exact ⟨Path.head hstep h.2.1, h.2.2, fun hn => absurd hn hprep⟩

omit hself hlevel hrest in
/-- Somebody who has voted for or accepted a commit commits to its value. -/
theorem commitsTo_of_federatedAccept {ballot : SCPBallot} {cur : Interval}
    (h : node.federatedAccept (votesToCommit ballot cur) (commitPredicate ballot cur)
      s.mLatestEnvelopes = true) :
    ∃ (n : NodeID) (env : SCPEnvelope), s.mLatestEnvelopes[n]? = some env ∧
      CommitsTo ballot.value env.statement := by
  obtain ⟨n, env, henv, hor⟩ := exists_of_federatedAccept h
  refine ⟨n, env, henv, ?_⟩
  unfold CommitsTo
  cases hpl : env.statement.pledges with
  | prepare p =>
    simp only [commitPredicate, votesToCommit, hpl, Bool.false_eq_true, false_or,
      Bool.and_eq_true, areBallotsCompatible_iff, decide_eq_true_eq] at hor
    exact ⟨hor.1.2, hor.1.1.symm⟩
  | confirm c =>
    simp only [commitPredicate, votesToCommit, hpl, Bool.and_eq_true,
      areBallotsCompatible_iff] at hor
    rcases hor with h | h <;> exact h.1.symm
  | externalize e =>
    simp only [commitPredicate, votesToCommit, hpl, Bool.and_eq_true,
      areBallotsCompatible_iff] at hor
    rcases hor with h | h <;> exact h.1.symm

omit hself hlevel hrest in
/-- The guard of a commit that is accepted, up to what it asks under `F`. -/
theorem guard_acceptCommit {ballot : SCPBallot} {i : Interval} (hphase : s.mPhase ≠ .EXTERNALIZE)
    (hi : i = node.acceptedInterval s.mLatestEnvelopes ballot) (hne : i.1 ≠ 0)
    (hraise : s.mPhase = .CONFIRM →
      ∃ h, s.mHighBallot = some h ∧ ballot.value = h.value ∧ h.counter < i.2)
    (hprep : F → s.mPrepared ≠ none) :
    Guard node V F s (.acceptCommit ⟨i.1, ballot.value⟩ ⟨i.2, ballot.value⟩) := by
  have hgood := searchInterval_spec (fun cur => node.federatedAccept (votesToCommit ballot cur)
    (commitPredicate ballot cur) s.mLatestEnvelopes) s.mLatestEnvelopes ballot
  rw [hi] at hne hraise ⊢
  obtain ⟨hle, hacc⟩ := hgood hne
  refine ⟨hphase, hne, hle, rfl, fun hc => ?_, commitsTo_of_federatedAccept hacc, hprep⟩
  obtain ⟨h, hh, hv, hlt⟩ := hraise hc
  exact ⟨h, hh, hv.symm, hlt⟩

omit hself hlevel hrest in
theorem Sync.prepared_ne_none (h : Sync node s) (hphase : s.mPhase = .CONFIRM) :
    s.mPrepared ≠ none := by
  rcases h with ⟨-, hfresh⟩ | ⟨pledges, hpl, -⟩
  · have := congrArg Ballots.phase hfresh
    simp [hphase] at this
  · intro hnone
    simp only [Node.pledgesOf, ballots_phase, hphase, ballots_p, hnone] at hpl
    split at hpl <;> simp_all

theorem attemptAcceptCommit_spec {hint : SCPStatement}
    (hdone : s.mPrepared = none → s.mPhase = .PREPARE →
      (∃ env, s.mLatestEnvelopes[hint.nodeID]? = some env ∧ env.statement = hint) ∧
      ∀ β ∈ getPrepareCandidates s.mLatestEnvelopes hint,
        node.federatedAccept (votesToPrepare β) (hasPreparedBallot β) s.mLatestEnvelopes = false) :
    wp (node.attemptAcceptCommit self hint)
      (fun _ s' => Path node V F R True s s' ∧
        s'.mCurrentMessageLevel = s.mCurrentMessageLevel)
      (CrashFrom node V F R s) s := by
  refine attemptAcceptCommit_rule ⟨Path.refl s, rfl⟩ (CrashFrom.rest (by simp) (by simp) (by simp))
    fun ballot i hphase hb hi hne hraise => ?_
  have hprep : F → s.mPrepared ≠ none := by
    intro hF hnone
    cases hph : s.mPhase with
    | PREPARE =>
      obtain ⟨⟨env, hrec, hst⟩, hnot⟩ := hdone hnone hph
      have hgood := searchInterval_spec (fun cur => node.federatedAccept (votesToCommit ballot cur)
        (commitPredicate ballot cur) s.mLatestEnvelopes) s.mLatestEnvelopes ballot
      rw [hi] at hne
      obtain ⟨β, hβ, hβacc⟩ := exists_accepted_candidate hrec hst hb (hgood hne).2
      rw [hnot β hβ] at hβacc
      cases hβacc
    | CONFIRM => exact (hrest.sync hF).prepared_ne_none hph hnone
    | EXTERNALIZE => exact hphase hph
  have hg : Guard node V F s _ := guard_acceptCommit hphase hi hne hraise hprep
  exact setAcceptCommit_rule hg fun t hch =>
    wp_mono (emit_inside hself hlevel hrest (fun _ h => by cases h) hg hch) (fun _ _ h => h.2)
      fun _ _ h => h

theorem attemptConfirmCommit_spec {hint : SCPStatement} :
    wp (node.attemptConfirmCommit self hint)
      (fun _ s' => Path node V F R True s s' ∧
        s'.mCurrentMessageLevel = s.mCurrentMessageLevel)
      (CrashFrom node V F R s) s := by
  refine attemptConfirmCommit_rule ⟨Path.refl s, rfl⟩ fun c h (hg : Guard node V F s _) =>
    setConfirmCommit_rule hg fun t hch => ?_
  refine wp_mono (emit_inside hself hlevel hrest (fun _ h => by cases h) hg hch)
    (fun _ s' hs' => ?_) fun _ _ h => h
  obtain ⟨⟨w, env, hpub, hpath, -, hext⟩, hpath', hlev⟩ := hs'
  have hw : w.mPhase = .EXTERNALIZE := by
    rw [← ballots_phase, hpub.ballots]
    rfl
  obtain ⟨hb, hx⟩ := hext hw
  -- nobody was told a value before
  have hnone : externalized s'.log = [] := by
    rw [hx, hpub.log.externalized]
    exact hrest.announced hg.phase_ne
  have hphase' : s'.mPhase = .EXTERNALIZE := by
    rw [← ballots_phase, hb]
    exact hw
  have hquiet : Step node V F R True s' (s'.logging .stopNomination) :=
    .quiet ⟨rfl, rfl, rfl, rfl, Or.inl rfl, QuietLog.append rfl trivial⟩
  refine ⟨fun commit hcommit => ⟨?_, hlev⟩, fun hnull => ?_⟩
  · refine hpath'.trans (Path.head hquiet (Path.single (.externalize commit.value hphase'
      ⟨commit, hcommit, rfl⟩ ?_)))
    simpa [externalized] using hnone
  · have hc : s'.mCommit = some c := by
      rw [← ballots_c, hb, hpub.ballots]
      rfl
    rw [hc] at hnull
    cases hnull

end Attempts

/-! ## Bumping -/

section Bump

variable {self : SelfProcess} {newb : SCPBallot}

/-- The part of the guard of a bump that does not depend on the current ballot. -/
def BumpValue (V : Value → Prop) (s : Slot) (newb : SCPBallot) : Prop :=
  (∀ h, s.mHighBallot = some h → newb.value = h.value) ∧
    (s.mHighBallot = none → V newb.value ∨ ∃ b, s.mCurrentBallot = some b ∧ newb.value = b.value)

/-- `updateCurrentValue` bumps the current ballot or leaves everything as it is. -/
theorem updateCurrentValue_spec (hphase : s.mPhase ≠ .EXTERNALIZE)
    (hcounter : newb.counter = 0 → ∃ b, s.mCurrentBallot = some b ∧ b.counter ≠ 0)
    (hvalue : BumpValue V s newb) :
    wp (updateCurrentValue newb)
      (fun r s' => (r = true ∧ Changed s s' (.bump newb) ∧ Guard node V F s (.bump newb)) ∨
        (r = false ∧ s' = s))
      (fun e t => CrashFrom node V F R s e t ∧ e ≠ .maxTransitions) s := by
  unfold updateCurrentValue
  simp only [wp_bind, wp_get]
  refine (wp_ite _ _).mpr ⟨fun h => absurd h hphase, fun _ => ?_⟩
  split
  · -- no current ballot yet
    rename_i hb
    have hne : newb.counter ≠ 0 := fun h => by
      obtain ⟨b, hb', -⟩ := hcounter h
      rw [hb] at hb'
      cases hb'
    simp only [wp_bind, wp_get, wp_require, wp_pure]
    refine wp_mono (bumpToBallot_spec hphase fun _ b hb' => by rw [hb] at hb'; cases hb')
      (fun _ t ht => ?_) fun _ _ h => h
    have hch : Changed s t (.bump newb) := ⟨ht.1, ht.2⟩
    have hguard (hc : ∀ c, s.mCommit = some c → c.value = newb.value) :
        Guard node V F s (.bump newb) :=
      ⟨hphase, hne, fun b hb' => (by rw [hb] at hb'; cases hb'), hc, hvalue.1, hvalue.2⟩
    refine ⟨fun hok => Or.inl ⟨trivial, hch, hguard fun c hc => ?_⟩, fun hbad => ?_⟩
    · have hok := checkInvariants_iff.mp hok
      have htc : t.ballots.c = some c := by rw [ht.2]; exact hc
      have htb : t.ballots.b = some newb := by rw [ht.2]
      obtain ⟨h, b, -, hbb, ⟨-, hcv⟩, -, hhv⟩ := hok.commit c htc
      obtain rfl : b = newb := Option.some.inj (hbb.symm.trans htb)
      exact hcv.trans hhv
    · have hbad : ¬ t.ballots.Ok := fun h => by simp [checkInvariants_iff.mpr h] at hbad
      by_cases hc : s.mCommit = none
      · exact ⟨CrashFrom.publish (hguard fun c hc' => by rw [hc] at hc'; cases hc')
          ⟨ht.2, ht.1.envelopes, fun _ => hbad, Or.inl ht.1.log, fun h => (by cases h),
            fun h => (by cases h)⟩, by simp⟩
      · -- a commit without a current ballot is not a state at rest of a sound slot
        refine ⟨⟨s, Path.refl s, .rest ?_ ?_ ht.1.log (by simp) (by simp) fun _ hok => ?_⟩, by simp⟩
        · rw [← ballots_phase, ht.2]
          rfl
        · rw [← ballots_c, ht.2]
          rfl
        · obtain ⟨c, hc⟩ := Option.ne_none_iff_exists'.mp hc
          obtain ⟨h, b, -, hbb, -⟩ := hok.commit c hc
          rw [ballots_b, hb] at hbb
          cases hbb
  · rename_i b hb
    simp only [wp_bind, wp_require]
    refine ⟨fun hle => ?_, fun _ => ⟨CrashFrom.rest (by simp) (by simp) (by simp), by simp⟩⟩
    refine (wp_ite _ _).mpr ⟨fun _ => Or.inr ⟨rfl, rfl⟩, fun hcommit => ?_⟩
    refine (wp_ite _ _).mpr ⟨fun hlt => ?_, fun _ => ?_⟩
    · rw [compareBallots_lt_iff] at hlt
      have hne : newb.counter ≠ 0 := fun h => by
        obtain ⟨b', hb', hne⟩ := hcounter h
        obtain rfl : b = b' := Option.some.inj (hb.symm.trans hb')
        have := SCPBallot.counter_le hlt.le
        rw [h] at this
        exact hne (Fin.le_zero_iff.mp this)
      have hguard : Guard node V F s (.bump newb) := by
        refine ⟨hphase, hne, fun b' hb' => ?_, fun c hc => ?_, hvalue.1, hvalue.2⟩
        · obtain rfl : b = b' := Option.some.inj (hb.symm.trans hb')
          exact hlt
        · simpa [hc] using hcommit
      simp only [wp_bind, wp_get, wp_require, wp_pure]
      refine wp_mono (bumpToBallot_spec hphase fun _ b' hb' => ?_) (fun _ t ht => ?_)
        fun _ _ h => h
      · obtain rfl : b = b' := Option.some.inj (hb.symm.trans hb')
        exact hlt.le
      · refine ⟨fun _ => Or.inl ⟨trivial, ⟨ht.1, ht.2⟩, hguard⟩, fun hbad => ?_⟩
        have hbad : ¬ t.ballots.Ok := fun h => by simp [checkInvariants_iff.mpr h] at hbad
        exact ⟨CrashFrom.publish hguard
          ⟨ht.2, ht.1.envelopes, fun _ => hbad, Or.inl ht.1.log, fun h => (by cases h),
            fun h => (by cases h)⟩, by simp⟩
    · refine (wp_ite _ _).mpr ⟨fun _ => Or.inr ⟨rfl, rfl⟩, fun _ => ?_⟩
      simp only [wp_bind, wp_require, wp_pure]
      refine ⟨fun _ => Or.inr ⟨trivial, trivial⟩, fun hbad => ?_⟩
      refine ⟨⟨s, Path.refl s, .rest rfl rfl (QuietLog.refl s) (by simp) (by simp) fun _ hok => ?_⟩,
        by simp⟩
      simp [checkInvariants_iff.mpr hok] at hbad

/-- The value `abandonBallot` bumps to is one given to the protocol or the current one. -/
theorem Rest.abandonValue (hrest : Rest node V F s)
    (hv : ¬ (if s.mLatestCompositeCandidate = [] then (s.mCurrentBallot.map SCPBallot.value).getD []
      else s.mLatestCompositeCandidate) = []) :
    V (if s.mLatestCompositeCandidate = [] then (s.mCurrentBallot.map SCPBallot.value).getD []
      else s.mLatestCompositeCandidate) ∨
    ∃ b, s.mCurrentBallot = some b ∧ (if s.mLatestCompositeCandidate = [] then
      (s.mCurrentBallot.map SCPBallot.value).getD [] else s.mLatestCompositeCandidate) =
      b.value := by
  split_ifs at hv ⊢ with hcomp
  · cases hb : s.mCurrentBallot with
    | none => simp [hb] at hv
    | some b => exact Or.inr ⟨b, rfl, rfl⟩
  · exact Or.inl (hrest.composite.resolve_left hcomp)

/-- What a bump to counter `n` can do: leave everything as it is, or publish the new ballot. -/
def BumpResult (node : Node) (V : Value → Prop) (F : Prop) (R : SCPEnvelope → Prop)
    (inner : Prop) (n : Uint32) (s : Slot) (r : Bool) (s' : Slot) : Prop :=
  (r = false ∧ s' = s) ∨
  (r = true ∧ ∃ newb, newb.counter = n ∧ Guard node V F s (.bump newb) ∧
    AfterPublish node V F R inner s s' (.bump newb))

theorem BumpResult.path {n : Uint32} {r : Bool} (h : BumpResult node V F R inner n s r t) :
    Path node V F R False s t ∧ t.mCurrentMessageLevel = s.mCurrentMessageLevel := by
  rcases h with ⟨-, rfl⟩ | ⟨-, newb, -, hg, u, env, hpub, hpath, hlevel, -⟩
  · exact ⟨Path.refl _, rfl⟩
  · have hstep : Step node V F R False s u := .publish _ env (fun hi => hi.elim) hg hpub
    exact ⟨Path.head hstep hpath.weaken_false, hlevel⟩

/-- What `bumpState` does up to the emission that ends it. -/
theorem bumpStateTo_rule {Q : Bool → Slot → Prop} {E : Fault → Slot → Prop} {value : Value}
    {n : Uint32} (hvalue : V value ∨ ∃ b, s.mCurrentBallot = some b ∧ value = b.value)
    (hcounter : n = 0 → ∃ b, s.mCurrentBallot = some b ∧ b.counter ≠ 0) (hskip : Q false s)
    (hemit : ∀ newb t, newb.counter = n → Guard node V F s (.bump newb) →
      Changed s t (.bump newb) → wp (node.emitCurrentStateStatement self) (fun _ s' => Q true s') E t)
    (hcrash : ∀ e t, CrashFrom node V F R s e t → e ≠ .maxTransitions → E e t) :
    wp (node.bumpStateTo self value n) Q E s := by
  unfold Node.bumpStateTo record
  simp only [wp_bind, wp_get]
  refine (wp_ite _ _).mpr ⟨fun _ => hskip, fun hphase => ?_⟩
  have hbv : BumpValue V s ⟨n, (s.mHighBallot.map SCPBallot.value).getD value⟩ := by
    refine ⟨fun h hh => by simp [hh], fun hh => ?_⟩
    simpa [hh] using hvalue
  generalize hnewb : (⟨n, (s.mHighBallot.map SCPBallot.value).getD value⟩ : SCPBallot) = newb at *
  have hcounter' : newb.counter = 0 → ∃ b, s.mCurrentBallot = some b ∧ b.counter ≠ 0 := by
    rw [← hnewb]
    exact hcounter
  rw [wp_bind]
  refine wp_mono (updateCurrentValue_spec hphase hcounter' hbv) (fun r t ht => ?_)
    fun e t h => hcrash e t h.1 h.2
  rcases ht with ⟨rfl, hch, hg⟩ | ⟨rfl, rfl⟩
  · simp only [if_true, wp_bind, wp_modify, wp_pure]
    exact hemit newb _ (by rw [← hnewb]) hg
      ⟨hch.toFrame.trans (Frame.logging t _ trivial), hch.ballots⟩
  · exact hskip

variable (hself : SelfSpec node V F R self) (hrest : Rest node V F s)
include hself hrest

theorem bumpStateTo_result (hin : inner → 1 ≤ s.mCurrentMessageLevel) {value : Value} {n : Uint32}
    (hvalue : V value ∨ ∃ b, s.mCurrentBallot = some b ∧ value = b.value)
    (hcounter : n = 0 → ∃ b, s.mCurrentBallot = some b ∧ b.counter ≠ 0) :
    wp (node.bumpStateTo self value n) (BumpResult node V F R inner n s) (CrashFrom node V F R s)
      s := by
  refine bumpStateTo_rule hvalue hcounter (Or.inl ⟨rfl, rfl⟩)
    (fun newb t hn (hg : Guard node V F s _) hch => ?_) fun _ _ h _ => h
  refine wp_mono (emitCurrentStateStatement_spec hself hin hrest hg hch)
    (fun _ s' (h : AfterPublish node V F R inner s s' _) => ?_) fun _ _ h => h
  exact Or.inr ⟨rfl, newb, hn, hg, h⟩

theorem bumpStateTo_spec {value : Value} {n : Uint32}
    (hvalue : V value ∨ ∃ b, s.mCurrentBallot = some b ∧ value = b.value)
    (hcounter : n = 0 → ∃ b, s.mCurrentBallot = some b ∧ b.counter ≠ 0) :
    wp (node.bumpStateTo self value n)
      (fun _ s' => Path node V F R False s s' ∧
        s'.mCurrentMessageLevel = s.mCurrentMessageLevel)
      (CrashFrom node V F R s) s :=
  wp_mono (bumpStateTo_result hself hrest (fun h : False => h.elim) hvalue hcounter)
    (fun _ _ h => h.path) fun _ _ h => h

theorem bumpState_spec {value : Value} {force : Bool}
    (hvalue : V value ∨ ∃ b, s.mCurrentBallot = some b ∧ value = b.value) :
    wp (node.bumpState self value force)
      (fun _ s' => Path node V F R False s s' ∧
        s'.mCurrentMessageLevel = s.mCurrentMessageLevel)
      (CrashFrom node V F R s) s := by
  unfold Node.bumpState
  simp only [wp_bind, wp_get]
  refine (wp_ite _ _).mpr ⟨fun _ => ⟨Path.refl s, rfl⟩, fun _ => ?_⟩
  refine bumpStateTo_spec hself hrest hvalue fun h0 => ?_
  cases hb : s.mCurrentBallot with
  | none => simp [hb] at h0
  | some b =>
    -- the counter wraps only at its maximum
    refine ⟨b, rfl, fun hb0 => ?_⟩
    simp [hb, hb0] at h0

theorem abandonBallot_result (hin : inner → 1 ≤ s.mCurrentMessageLevel) {n : Uint32} (hn : n ≠ 0) :
    wp (node.abandonBallot self n) (BumpResult node V F R inner n s) (CrashFrom node V F R s) s := by
  unfold Node.abandonBallot
  simp only [wp_bind, wp_get]
  refine (wp_ite _ _).mpr ⟨fun _ => Or.inl ⟨rfl, rfl⟩, fun hv => ?_⟩
  refine (wp_ite _ _).mpr ⟨fun h => absurd h hn, fun _ => ?_⟩
  exact bumpStateTo_result hself hrest hin (hrest.abandonValue hv) fun h => absurd h hn

theorem abandonBallot_spec {n : Uint32} :
    wp (node.abandonBallot self n)
      (fun _ s' => Path node V F R False s s' ∧
        s'.mCurrentMessageLevel = s.mCurrentMessageLevel)
      (CrashFrom node V F R s) s := by
  by_cases hn : n = 0
  · unfold Node.abandonBallot
    simp only [wp_bind, wp_get]
    refine (wp_ite _ _).mpr ⟨fun _ => ⟨Path.refl s, rfl⟩, fun hv => ?_⟩
    refine (wp_ite _ _).mpr ⟨fun _ => ?_, fun h => absurd hn h⟩
    exact bumpState_spec hself hrest (hrest.abandonValue hv)
  · exact wp_mono (abandonBallot_result hself hrest (fun h : False => h.elim) hn)
      (fun _ _ h => h.path) fun _ _ h => h

theorem ballotProtocolTimerExpired_spec :
    wp (node.ballotProtocolTimerExpired self)
      (fun _ s' => Path node V F R False s s' ∧
        s'.mCurrentMessageLevel = s.mCurrentMessageLevel)
      (CrashFrom node V F R s) s := by
  unfold Node.ballotProtocolTimerExpired startBallotProtocolTimer record
  simp only [wp_bind, wp_get]
  refine (wp_ite _ _).mpr ⟨fun _ => ?_, fun _ => ?_⟩
  · simp only [wp_bind, wp_pure]
    exact abandonBallot_spec hself hrest
  · simp only [wp_bind, wp_get, wp_deref, wp_modify]
    refine ⟨fun b _ => ⟨Path.single (.quiet ⟨rfl, rfl, rfl, rfl, Or.inl rfl,
      QuietLog.append rfl trivial⟩), rfl⟩, fun _ => CrashFrom.rest (by simp) (by simp) (by simp)⟩

theorem bumpLoop_spec {envs : EnvelopeMap} {target : Uint32} (l : List Uint32) :
    wp (node.bumpLoop self envs target l)
      (fun _ s' => Path node V F R False s s' ∧
        s'.mCurrentMessageLevel = s.mCurrentMessageLevel)
      (CrashFrom node V F R s) s := by
  induction l with
  | nil => exact ⟨Path.refl s, rfl⟩
  | cons n rest ih =>
    have hskip : Path node V F R False s s ∧ s.mCurrentMessageLevel = s.mCurrentMessageLevel :=
      ⟨Path.refl s, rfl⟩
    unfold Node.bumpLoop
    refine (wp_ite _ _).mpr ⟨fun _ => hskip, fun _ => ?_⟩
    refine (wp_ite _ _).mpr ⟨fun _ => ?_, fun _ => ?_⟩
    · exact (wp_ite _ _).mpr ⟨fun _ => hskip, fun _ => ih⟩
    · exact (wp_ite _ _).mpr ⟨fun _ => abandonBallot_spec hself hrest, fun _ => ih⟩

theorem attemptBump_spec :
    wp (node.attemptBump self)
      (fun _ s' => Path node V F R False s s' ∧
        s'.mCurrentMessageLevel = s.mCurrentMessageLevel)
      (CrashFrom node V F R s) s := by
  unfold Node.attemptBump
  simp only [wp_bind, wp_get]
  exact (wp_ite _ _).mpr ⟨fun _ => ⟨Path.refl s, rfl⟩, fun _ => bumpLoop_spec hself hrest _⟩

theorem bumpRounds_spec (rounds : ℕ) (didWork : Bool) :
    wp (node.bumpRounds self rounds didWork)
      (fun _ s' => Path node V F R False s s' ∧
        s'.mCurrentMessageLevel = s.mCurrentMessageLevel)
      (CrashFrom node V F R s) s := by
  induction rounds generalizing s didWork with
  | zero => exact CrashFrom.rest (by simp) (by simp) (by simp)
  | succ rounds ih =>
    unfold Node.bumpRounds
    simp only [wp_bind]
    refine wp_mono (attemptBump_spec hself hrest) (fun r t ht => ?_) fun _ _ h => h
    refine (wp_ite _ _).mpr ⟨fun _ => ?_, fun _ => ht⟩
    refine wp_mono (ih (ht.1.rest hrest) true) (fun _ u hu => ?_) fun _ _ h => h.of_path ht.1
    exact ⟨ht.1.trans hu.1, hu.2.trans ht.2⟩

end Bump

/-! ## Advancing -/

section Advance

variable {self : SelfProcess} (hself : SelfSpec node V F R self)

theorem checkHeardFromQuorum_spec (node : Node) (V : Value → Prop) {E : Fault → Slot → Prop} :
    wp node.checkHeardFromQuorum
      (fun _ s' => QuietStep V s s' ∧ s'.mCurrentMessageLevel = s.mCurrentMessageLevel) E s := by
  have hskip : QuietStep V s s ∧ s.mCurrentMessageLevel = s.mCurrentMessageLevel :=
    ⟨⟨rfl, rfl, rfl, rfl, Or.inl rfl, QuietLog.refl s⟩, rfl⟩
  unfold Node.checkHeardFromQuorum record
  simp only [wp_bind, wp_get]
  split
  · exact hskip
  · refine (wp_ite _ _).mpr ⟨fun _ => ?_, fun _ => hskip⟩
    simp only [wp_bind, wp_set, wp_modify]
    exact ⟨⟨rfl, rfl, rfl, rfl, Or.inl rfl, QuietLog.append rfl trivial⟩, rfl⟩

include hself

theorem attemptAll_spec {hint : SCPStatement} {env : SCPEnvelope}
    (hlevel : 1 ≤ s.mCurrentMessageLevel) (hrest : Rest node V F s)
    (hrec : s.mLatestEnvelopes[hint.nodeID]? = some env) (hst : env.statement = hint) :
    wp (node.attemptAll self hint)
      (fun _ s' => Path node V F R True s s' ∧
        s'.mCurrentMessageLevel = s.mCurrentMessageLevel)
      (CrashFrom node V F R s) s := by
  unfold Node.attemptAll
  simp only [wp_bind]
  refine wp_mono (attemptPreparedAccept_spec hself hlevel hrest hrec hst) (fun _ s₁ h₁ => ?_)
    fun _ _ h => h
  obtain ⟨hp₁, hl₁, hdone⟩ := h₁
  have hr₁ := hp₁.rest hrest
  refine wp_mono (attemptPreparedConfirmed_spec hself (by rw [hl₁]; exact hlevel) hr₁ hdone)
    (fun _ s₂ h₂ => ?_) fun _ _ h => h.of_path hp₁
  obtain ⟨hp₂, hl₂, hnone⟩ := h₂
  have hr₂ := hp₂.rest hr₁
  have hdone₂ : s₂.mPrepared = none → s₂.mPhase = .PREPARE →
      (∃ env, s₂.mLatestEnvelopes[hint.nodeID]? = some env ∧ env.statement = hint) ∧
      ∀ β ∈ getPrepareCandidates s₂.mLatestEnvelopes hint, node.federatedAccept
        (votesToPrepare β) (hasPreparedBallot β) s₂.mLatestEnvelopes = false := by
    intro hn hph
    -- nothing is prepared after the second attempt, so it found nothing to do
    have hn₁ : s₁.mPrepared = none := by
      by_contra hne
      obtain ⟨p, hp⟩ := Option.ne_none_iff_exists'.mp hne
      obtain ⟨q, hq, -⟩ := hp₂.innerRel.prepared p hp
      rw [hn] at hq
      cases hq
    rw [hnone hn₁] at hph ⊢
    exact hdone.prepared hn₁ hph
  refine wp_mono (attemptAcceptCommit_spec hself (by rw [hl₂, hl₁]; exact hlevel) hr₂ hdone₂)
    (fun _ s₃ h₃ => ?_) fun _ _ h => h.of_path (hp₁.trans hp₂)
  obtain ⟨hp₃, hl₃⟩ := h₃
  refine wp_mono (attemptConfirmCommit_spec hself (by rw [hl₃, hl₂, hl₁]; exact hlevel)
    (hp₃.rest hr₂)) (fun _ s₄ h₄ => ?_) fun _ _ h => h.of_path ((hp₁.trans hp₂).trans hp₃)
  obtain ⟨hp₄, hl₄⟩ := h₄
  exact ⟨((hp₁.trans hp₂).trans hp₃).trans hp₄, by rw [hl₄, hl₃, hl₂, hl₁]⟩

/-- Inside an `attempt…` function the level is above one, and nothing is bumped. -/
theorem bumpIfOutermost_spec {didWork : Bool} (hin : inner → 1 < s.mCurrentMessageLevel)
    (hrest : Rest node V F s) :
    wp (node.bumpIfOutermost self didWork)
      (fun _ s' => Path node V F R inner s s' ∧
        s'.mCurrentMessageLevel = s.mCurrentMessageLevel)
      (CrashFrom node V F R s) s := by
  unfold Node.bumpIfOutermost
  simp only [wp_bind, wp_get]
  refine (wp_ite _ _).mpr ⟨fun hone => ?_, fun _ => ⟨Path.refl s, rfl⟩⟩
  have hnot : ¬ inner := fun hi => absurd (hin hi) (by rw [hone]; exact lt_irrefl 1)
  rw [eq_false hnot]
  exact bumpRounds_spec hself hrest _ didWork

theorem advanceSlot_spec {hint : SCPStatement} {env : SCPEnvelope}
    (hin : inner → 1 ≤ s.mCurrentMessageLevel) (hrest : Rest node V F s)
    (hrec : s.mLatestEnvelopes[hint.nodeID]? = some env) (hst : env.statement = hint) :
    wp (node.advanceSlot self hint)
      (fun _ s' => Path node V F R inner s s' ∧
        s'.mCurrentMessageLevel = s.mCurrentMessageLevel)
      (CrashFrom node V F R s) s := by
  unfold Node.advanceSlot
  rw [wp_bind, wp_modify, wp_bind, wp_get, wp_bind, wp_require]
  obtain ⟨s₁, hs₁⟩ : ∃ s₁, s₁ = { s with mCurrentMessageLevel := s.mCurrentMessageLevel + 1 } :=
    ⟨_, rfl⟩
  rw [← hs₁]
  have hq₁ : QuietStep V s s₁ := by
    rw [hs₁]
    exact ⟨rfl, rfl, rfl, rfl, Or.inl rfl, QuietLog.of_log_eq rfl⟩
  have hl₁ : s₁.mCurrentMessageLevel = s.mCurrentMessageLevel + 1 := by rw [hs₁]
  have hp₁ : Path node V F R True s s₁ := Path.single (.quiet hq₁)
  refine ⟨fun _ => ?_, fun _ => CrashFrom.of_path hp₁ (CrashFrom.rest (by simp) (by simp)
    (by simp))⟩
  simp only [wp_bind, wp_modify]
  refine wp_mono (checkHeardFromQuorum_spec node V) (fun _ s₂ h₂ => ?_) fun _ _ h => h
  obtain ⟨hq₂, hl₂⟩ := h₂
  have hp₂ : Path node V F R True s s₂ := hp₁.trans (Path.single (.quiet hq₂))
  have hrest₂ := hp₂.rest hrest
  have hrec₂ : s₂.mLatestEnvelopes[hint.nodeID]? = some env := by
    rw [hq₂.envelopes, hq₁.envelopes]
    exact hrec
  refine wp_mono (attemptAll_spec hself (by rw [hl₂, hl₁]; omega) hrest₂ hrec₂ hst)
    (fun _ s₃ h₃ => ?_) fun _ _ h => h.of_path hp₂
  obtain ⟨hp₃, hl₃⟩ := h₃
  have hlevel₃ : s₃.mCurrentMessageLevel = s.mCurrentMessageLevel + 1 := by rw [hl₃, hl₂, hl₁]
  have hp₃' := hp₂.trans hp₃
  have hin₃ : inner → 1 < s₃.mCurrentMessageLevel := fun hi => by
    rw [hlevel₃]
    exact Nat.lt_succ_of_le (hin hi)
  refine wp_mono (bumpIfOutermost_spec hself hin₃ (hp₃'.rest hrest)) (fun didWork s₄ h₄ => ?_)
    fun _ _ h => h.of_path hp₃'
  obtain ⟨hp₄, hl₄⟩ := h₄
  obtain ⟨s₅, hs₅⟩ : ∃ s₅, s₅ = { s₄ with mCurrentMessageLevel := s₄.mCurrentMessageLevel - 1 } :=
    ⟨_, rfl⟩
  rw [← hs₅]
  have hp₅ : Path node V F R inner s s₅ := by
    refine hp₃'.weaken.trans (hp₄.trans (Path.single (.quiet ?_)))
    rw [hs₅]
    exact ⟨rfl, rfl, rfl, rfl, Or.inl rfl, QuietLog.of_log_eq rfl⟩
  have hl₅ : s₅.mCurrentMessageLevel = s.mCurrentMessageLevel := by
    rw [hs₅]
    simp [hl₄, hlevel₃]
  refine (wp_ite _ _).mpr ⟨fun _ => ?_, fun _ => ⟨hp₅, hl₅⟩⟩
  exact wp_mono (sendLatestEnvelope_spec node V F R inner)
    (fun _ _ h => ⟨hp₅.trans h.1, h.2.1.trans hl₅⟩) fun _ _ h => h

end Advance

/-! ## Processing envelopes -/

theorem getQuorumSetFromStatement_own {x : Ballots} {pledges : Pledges}
    (h : node.pledgesOf x = some pledges) :
    ∃ q, node.getQuorumSetFromStatement (node.createEnvelope pledges).statement = some q := by
  unfold Node.pledgesOf at h
  cases hph : x.phase <;> simp only [hph] at h
  · obtain rfl := Option.some.inj h
    exact ⟨_, node.getQSet_qSetHash⟩
  · split at h
    · obtain rfl := Option.some.inj h
      exact ⟨_, node.getQSet_qSetHash⟩
    · cases h
  · split at h
    · obtain rfl := Option.some.inj h
      exact ⟨_, rfl⟩
    · cases h

/-- The node's own statement is refused, or recorded. It is a hint to `advanceSlot` unless the slot
is done. -/
theorem processOwn_rule {Q : EnvelopeState → Slot → Prop} {E : Fault → Slot → Prop} {ch : Change}
    {env : SCPEnvelope} {depth : ℕ} (h : Emitting node V F inner s t ch env)
    (hinvalid : ∀ w, Frame t w → w.ballots = t.ballots →
      ¬ node.Processable t.log.length t.toBallotProtocol env.statement → Q .INVALID w)
    (hadvance : ∀ w, node.Published s w ch env → w.mPhase ≠ .EXTERNALIZE →
      w.mCurrentMessageLevel = t.mCurrentMessageLevel →
      wp (node.advanceSlot (fun env => node.processEnvelope depth env true) env.statement)
        (fun _ s' => Q .VALID s') E w)
    (hdone : ∀ w, node.Published s w ch env → w.mPhase = .EXTERNALIZE →
      w.mCurrentMessageLevel = t.mCurrentMessageLevel → Q .VALID w)
    (hnull : ∀ w, Frame t w → w.ballots = t.ballots → E (.nullDeref .externalizedCommit) w) :
    wp (node.processEnvelope (depth + 1) env true) Q E t := by
  obtain ⟨pledges, hpl, rfl⟩ := h.statement
  obtain ⟨q, hq⟩ := getQuorumSetFromStatement_own hpl
  have hslot : (node.createEnvelope pledges).statement.slotIndex = node.slotIndex := rfl
  have hid : (node.createEnvelope pledges).statement.nodeID = node.nodeID := rfl
  unfold Node.processEnvelope
  simp only [wp_bind, wp_require, wp_deref, wp_get, hslot, decide_true, true_imp_iff,
    Bool.true_eq_false, false_imp_iff, and_true, hq, reduceCtorEq]
  rintro _ -
  refine (wp_ite _ _).mpr ⟨fun hs => hinvalid t (Frame.refl t) rfl fun hp => by
    simp [hp.sane] at hs, fun hs => ?_⟩
  refine (wp_ite _ _).mpr ⟨fun hn => hinvalid t (Frame.refl t) rfl fun hp => by
    simp [hid, hp.newer] at hn, fun hn => ?_⟩
  -- the driver is asked
  have hasked := Frame.logging t (.validateValues (node.createEnvelope pledges).statement) trivial
  simp only [record, wp_bind, wp_modify]
  refine (wp_ite _ _).mpr ⟨fun hv => hinvalid _ hasked rfl fun hp => hp.valid hv, fun hv => ?_⟩
  have hsane : node.isStatementSane (node.createEnvelope pledges).statement true = true := by
    simpa using hs
  have hnewer : isNewerStatementFor t.mLatestEnvelopes node.nodeID
      (node.createEnvelope pledges).statement = true := by simpa [hid] using hn
  -- the state with the node's own statement recorded
  have hpub (w : Slot) (hb : w.ballots = t.ballots)
      (he : w.mLatestEnvelopes =
        t.mLatestEnvelopes.insert node.nodeID (node.createEnvelope pledges))
      (hlast : w.mLastEnvelope = t.mLastEnvelope)
      (hemit : w.mLastEnvelopeEmit = t.mLastEnvelopeEmit)
      (hcomp : w.mLatestCompositeCandidate = t.mLatestCompositeCandidate)
      (hlog : w.log = t.log ++ [.validateValues (node.createEnvelope pledges).statement])
      (hcom : t.mPhase = .EXTERNALIZE → ∃ c, t.mCommit = some c ∧
        c.value = (getWorkingBallot (node.createEnvelope pledges).statement).value) :
      node.Published s w ch (node.createEnvelope pledges) :=
    { ballots := hb.trans h.ballots
      ok := by rw [hb]; exact h.ok
      statement := ⟨pledges, by rw [hb]; exact hpl, rfl⟩
      envelopes := by rw [he, h.envelopes]
      processable := Or.inr ⟨t.toBallotProtocol, t.log.length, hb.symm, h.envelopes,
        h.log.log_isPrefix.length_le, by simp [hlog], ⟨hsane, hnewer, hv, hcom⟩⟩
      last := hlast.trans h.last
      lastEmit := hemit.trans h.lastEmit
      composite := hcomp.trans h.composite
      log := h.log.quiet (QuietLog.append hlog (by trivial)) hb }
  refine (wp_ite _ _).mpr ⟨fun hphase => ?_, fun hphase => ?_⟩
  · simp only [wp_bind, wp_modify, wp_pure]
    exact hadvance _ (hpub _ rfl rfl rfl rfl rfl rfl fun he => absurd he hphase) hphase rfl
  · rw [not_not] at hphase
    simp only [wp_bind, wp_deref]
    refine ⟨fun c hc => (wp_ite _ _).mpr ⟨fun hval => ?_, fun hval => hinvalid _ hasked rfl
      fun hp => ?_⟩, fun _ => hnull _ hasked rfl⟩
    · simp only [wp_bind, wp_modify, wp_pure]
      exact hdone _ (hpub _ rfl rfl rfl rfl rfl rfl fun _ => ⟨c, hc, hval⟩) hphase rfl
    · obtain ⟨c', hc', hval'⟩ := hp.committed hphase
      obtain rfl : c = c' := Option.some.inj (hc.symm.trans hc')
      exact hval hval'

/-- A fault that is neither an invariant nor a statement that is refused, while the statement of a
change is processed. -/
theorem Emitting.crash {ch : Change} {env : SCPEnvelope} {e : Fault}
    (h : Emitting node V F inner s t ch env) (hinv : e ≠ .checkInvariants)
    (hnull : e ≠ .nullDeref .createStatement) (hbad : e ≠ .badState) :
    CrashFrom node V F R s e t := by
  obtain ⟨pledges, hpl, rfl⟩ := h.statement
  exact CrashFrom.publish h.guard
    { ballots := h.ballots
      envelopes := h.envelopes
      checkInvariants := fun he => absurd he hinv
      log := Or.inr ⟨h.ok, pledges, hpl, h.log⟩
      null := fun he => absurd he hnull
      badState := fun he => absurd he hbad }

/-- **One more level of nesting.** Processing the node's own envelope meets its specification at
every depth. -/
theorem processEnvelope_selfSpec (node : Node) (V : Value → Prop) (F : Prop)
    (R : SCPEnvelope → Prop) (depth : ℕ) :
    SelfSpec node V F R fun env => node.processEnvelope depth env true := by
  induction depth with
  | zero =>
    intro inner s t ch env h
    exact h.crash (by simp) (by simp) (by simp)
  | succ depth ih =>
    intro inner s t ch env h
    have hid : env.statement.nodeID = node.nodeID := by
      obtain ⟨pledges, -, rfl⟩ := h.statement
      rfl
    refine processOwn_rule h (fun w hw hb hnot => Or.inr ⟨rfl, hw, hb, hnot⟩)
      (fun w hpub hphase hl => ?_) (fun w hpub hphase hl => ?_)
      (fun w hw hb => (h.quiet hw hb).crash (by simp) (by simp) (by simp))
    · have hstep : Step node V F R False s w := .publish ch env (fun hi => hi.elim) h.guard hpub
      refine wp_mono (advanceSlot_spec ih (fun hi => hl ▸ h.inside hi) (hstep.rest h.rest)
        (by rw [hpub.envelopes, hid, getElem?_insert_self]) rfl) (fun _ s' hs' => ?_)
        fun _ _ hc => hc.of_path (Path.single hstep)
      exact Or.inl ⟨rfl, w, env, hpub, hs'.1, hs'.2.trans (hl.trans h.level),
        fun he => absurd he hphase⟩
    · exact Or.inl ⟨rfl, w, env, hpub, Path.refl _, hl.trans h.level, fun _ => ⟨rfl, rfl⟩⟩

/-! ## Inputs and runs -/

/-- What is asked of an input: values given to the protocol are in `V`, and under `F` so are
those in the statements that pass `validateValues`, and an envelope under the node's own name is
not news. -/
def InputOk (node : Node) (V : Value → Prop) (F : Prop) (R : SCPEnvelope → Prop) (s : Slot) :
    Input → Prop
  | .envelope env => R env ∧ (F →
    (node.validateValues s.log.length env.statement ≠ .kInvalidValue →
      ∀ β ∈ mentioned env.statement, V β.value) ∧
    (env.statement.nodeID = node.nodeID →
      isNewerStatementFor s.mLatestEnvelopes node.nodeID env.statement = false))
  | .bumpState value _ => V value
  | .updatedCandidateValue value => V value
  | .timerExpired => True
  | .abandonBallot => True

/-- A statement of another node is refused, or recorded. It is a hint to `advanceSlot` unless the
slot is done. -/
theorem receive_rule {Q : EnvelopeState → Slot → Prop} {E : Fault → Slot → Prop} {env : SCPEnvelope}
    {depth : ℕ} (hin : InputOk node V F R s (.envelope env))
    (hskip : ∀ w, Frame s w → w.ballots = s.ballots → Q .INVALID w)
    (hadvance : ∀ w, Step node V F R False s w →
      w.mCurrentMessageLevel = s.mCurrentMessageLevel →
      w.mLatestEnvelopes[env.statement.nodeID]? = some env →
      wp (node.advanceSlot (fun env => node.processEnvelope depth env true) env.statement)
        (fun _ s' => Q .VALID s') E w)
    (hdone : ∀ w, Step node V F R False s w →
      w.mCurrentMessageLevel = s.mCurrentMessageLevel → Q .VALID w)
    (hslot : E (.dbgAssert .slotIndex) s) (hqset : E (.nullDeref .quorumSet) s)
    (hnull : ∀ w, Frame s w → w.ballots = s.ballots → E (.nullDeref .externalizedCommit) w) :
    wp (node.processEnvelope (depth + 1) env false) Q E s := by
  unfold Node.processEnvelope
  simp only [wp_bind, wp_require, wp_deref, wp_get]
  refine ⟨fun _ => ⟨fun q _ => ?_, fun _ => hqset⟩, fun _ => hslot⟩
  refine (wp_ite _ _).mpr ⟨fun _ => hskip s (Frame.refl s) rfl, fun hs => ?_⟩
  refine (wp_ite _ _).mpr ⟨fun _ => hskip s (Frame.refl s) rfl, fun hn => ?_⟩
  have hasked := Frame.logging s (.validateValues env.statement) trivial
  simp only [record, wp_bind, wp_modify]
  refine (wp_ite _ _).mpr ⟨fun _ => hskip _ hasked rfl, fun hv => ?_⟩
  have hnewer : isNewerStatementFor s.mLatestEnvelopes env.statement.nodeID env.statement =
      true := by simpa using hn
  have hrecv (w : Slot) (hb : w.ballots = s.ballots)
      (he : w.mLatestEnvelopes = s.mLatestEnvelopes.insert env.statement.nodeID env)
      (hlast : w.mLastEnvelope = s.mLastEnvelope)
      (hemit : w.mLastEnvelopeEmit = s.mLastEnvelopeEmit)
      (hcomp : w.mLatestCompositeCandidate = s.mLatestCompositeCandidate)
      (hlog : w.log = s.log ++ [.validateValues env.statement]) :
      Step node V F R False s w :=
    .receive env (fun h => h)
      { known := hin.1
        sane := by simpa using hs
        newer := hnewer
        valid := hv
        own := fun hF hown => by
          have := (hin.2 hF).2 hown
          rw [← hown, hnewer] at this
          cases this
        values := fun hF => (hin.2 hF).1 hv
        ballots := hb
        envelopes := he
        last := hlast
        lastEmit := hemit
        composite := hcomp
        log := hlog }
  refine (wp_ite _ _).mpr ⟨fun _ => ?_, fun _ => ?_⟩
  · simp only [wp_bind, wp_modify, wp_pure]
    exact hadvance _ (hrecv _ rfl rfl rfl rfl rfl rfl) rfl getElem?_insert_self
  · simp only [wp_bind, wp_deref]
    refine ⟨fun c _ => (wp_ite _ _).mpr ⟨fun _ => ?_, fun _ => hskip _ hasked rfl⟩,
      fun _ => hnull _ hasked rfl⟩
    simp only [wp_bind, wp_modify, wp_pure]
    exact hdone _ (hrecv _ rfl rfl rfl rfl rfl rfl) rfl

theorem receive_spec {env : SCPEnvelope} (hrest : Rest node V F s)
    (hin : InputOk node V F R s (.envelope env)) (depth : ℕ) :
    wp (node.processEnvelope depth env false) (fun _ s' => Path node V F R False s s' ∧
      s'.mCurrentMessageLevel = s.mCurrentMessageLevel)
      (CrashFrom node V F R s) s := by
  cases depth with
  | zero => exact CrashFrom.rest (by simp) (by simp) (by simp)
  | succ depth =>
    refine receive_rule hin (fun w hw hb => ⟨Path.single (.quiet (hw.quiet hb)), hw.level⟩)
      (fun w hstep hl hrec => ?_) (fun w hstep hl => ⟨Path.single hstep, hl⟩)
      (CrashFrom.rest (by simp) (by simp) (by simp)) (CrashFrom.rest (by simp) (by simp) (by simp))
      (fun w hw hb => CrashFrom.rest_of_frame hw hb (by simp) (by simp) (by simp))
    exact wp_mono (advanceSlot_spec (processEnvelope_selfSpec node V F R depth)
      (fun h => h.elim) (hstep.rest hrest) hrec rfl)
      (fun _ s' hs' => ⟨Path.head hstep hs'.1, hs'.2.trans hl⟩)
      fun _ _ hc => hc.of_path (Path.single hstep)

/-- **One input follows the transition system.** -/
theorem step_spec (hrest : Rest node V F s) {i : Input} (hin : InputOk node V F R s i) :
    wp (node.step i) (fun _ s' => Path node V F R False s s' ∧
      s'.mCurrentMessageLevel = s.mCurrentMessageLevel) (CrashFrom node V F R s) s := by
  have hself : SelfSpec node V F R node.processSelf :=
    processEnvelope_selfSpec node V F R MAX_ADVANCE_SLOT_RECURSION
  cases i with
  | envelope env =>
    simp only [Node.step, wp_bind, wp_pure]
    exact receive_spec hrest hin _
  | bumpState value force =>
    simp only [Node.step, wp_bind, wp_pure]
    exact bumpState_spec hself hrest (Or.inl hin)
  | updatedCandidateValue value =>
    simp only [Node.step, wp_bind, wp_modify, wp_pure]
    have hstep : Step node V F R False s { s with mLatestCompositeCandidate := value } :=
      .quiet ⟨rfl, rfl, rfl, rfl, Or.inr hin, QuietLog.of_log_eq rfl⟩
    exact wp_mono (bumpState_spec hself (hstep.rest hrest) (Or.inl hin))
      (fun _ _ h => ⟨Path.head hstep h.1, h.2⟩) fun _ _ h => h.of_path (Path.single hstep)
  | timerExpired => exact ballotProtocolTimerExpired_spec hself hrest
  | abandonBallot =>
    simp only [Node.step, wp_bind, wp_pure]
    exact abandonBallot_spec hself hrest

/-- Inputs from a slot at rest, each of them fine in the slot it arrives in, follow the transition
system. -/
theorem runInputs_spec {s₀ : Slot} (hrest : Rest node V F s₀) (inputs : List Input)
    (hin : ∀ pre i post s, inputs = pre ++ i :: post → runInputs node.step pre s₀ = .ok () s →
      Path node V F R False s₀ s → InputOk node V F R s i) :
    wp (runInputs node.step inputs) (fun _ s => Path node V F R False s₀ s)
      (CrashFrom node V F R s₀) s₀ := by
  refine wp_runInputs (Path.refl _) fun pre i post s heq hrun hpath => ?_
  exact wp_mono (step_spec (hpath.rest hrest) (hin pre i post s heq hrun hpath))
    (fun _ _ h => hpath.trans h.1) fun _ _ h => h.of_path hpath

/-- **Every run follows the transition system.** A run that ends well is a path from the fresh
slot; a run that dies is a path to a crash. The inputs are asked to be fine in the slot they
arrive in. -/
theorem run_spec (inputs : List Input)
    (hin : ∀ pre i post s, inputs = pre ++ i :: post → node.run pre = .ok () s →
      Path node V F R False (freshSlot node) s → InputOk node V F R s i) :
    (node.faultAfter inputs = none ∧
      Path node V F R False (freshSlot node) (node.slotAfter inputs)) ∨
    ∃ e, node.faultAfter inputs = some e ∧
      CrashFrom node V F R (freshSlot node) e (node.slotAfter inputs) := by
  have hwp := runInputs_spec rest_freshSlot inputs hin
  unfold Node.faultAfter Node.slotAfter Node.run
  unfold wp at hwp
  cases hrun : runInputs node.step inputs (freshSlot node) with
  | ok _ s =>
    rw [hrun] at hwp
    exact Or.inl ⟨rfl, hwp⟩
  | error e s =>
    rw [hrun] at hwp
    exact Or.inr ⟨e, rfl, hwp⟩

/-- Every run at all, when nothing is asked of the inputs. -/
theorem run_spec_any (node : Node) (inputs : List Input) :
    (node.faultAfter inputs = none ∧
      Path node (fun _ => True) False (fun _ => True) False (freshSlot node) (node.slotAfter inputs)) ∨
    ∃ e, node.faultAfter inputs = some e ∧
      CrashFrom node (fun _ => True) False (fun _ => True) (freshSlot node) e (node.slotAfter inputs) := by
  refine run_spec inputs fun _ i _ _ _ _ _ => ?_
  cases i <;> simp [InputOk]

end SmartCore.SCP
