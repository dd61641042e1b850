import SmartCore.SCP.Candidates

/-!
# The ballot protocol as a transition system

The code updates its ballots in five places, and each of them is followed by the emission of the
node's own statement, which is recorded before anything else happens. Taking an update together
with that recording gives a transition system whose states are always at rest: the ballots and
the node's own recorded statement agree.

* `Ballots` is the part of the state the protocol is about, `Change` one update of it, and
  `Guard` what the code has checked before it makes the update.
* `Step` is one transition, `Path` a sequence of them. The steps of a path with `inner` set are
  those that can happen inside an `attempt…` function: no envelope arrives and no ballot is
  bumped there.
* `Crash` says in which states the process can die.

`Refinement` shows that the recursive code only ever follows paths of this system. What holds
along whole runs, that the ballots only go up, that what is externalized was voted for, that a
statement is never taken back, is then proved one step at a time.

Three parameters say what is known of the environment. `V` holds of the values given to
`bumpState` and of the values in received statements, and `F` says that no envelope arrives
under the node's own name. Guards that need them are stated under `F`. `R` holds of every
envelope that is received.
-/

namespace SmartCore.SCP

/-! ## Ballots -/

/-- Phase and ballots: `b`, `p`, `p'`, `h` and `c`. -/
@[ext]
structure Ballots where
  phase : Phase := .PREPARE
  b : Option SCPBallot := none
  p : Option SCPBallot := none
  p' : Option SCPBallot := none
  h : Option SCPBallot := none
  c : Option SCPBallot := none

def BallotProtocol.ballots (s : BallotProtocol) : Ballots :=
  ⟨s.mPhase, s.mCurrentBallot, s.mPrepared, s.mPreparedPrime, s.mHighBallot, s.mCommit⟩

/-- What `checkInvariants` asserts. -/
structure Ballots.Ok (x : Ballots) : Prop where
  counter_ne : ∀ b, x.b = some b → b.counter ≠ 0
  prime : ∀ p p', x.p = some p → x.p' = some p' → p' ≤ p ∧ p'.value ≠ p.value
  commit : ∀ c, x.c = some c → ∃ h b, x.h = some h ∧ x.b = some b ∧
    (c ≤ h ∧ c.value = h.value) ∧ (h ≤ b ∧ h.value = b.value)
  committed : x.phase ≠ .PREPARE → x.c ≠ none

theorem checkInvariants_iff {s : BallotProtocol} : checkInvariants s = true ↔ s.ballots.Ok := by
  unfold checkInvariants
  simp only [Bool.and_eq_true]
  constructor
  · rintro ⟨⟨⟨hb, hp⟩, hc⟩, hphase⟩
    refine ⟨fun b h => ?_, fun p p' h h' => ?_, fun c h => ?_, fun h => ?_⟩
    · simp only [BallotProtocol.ballots] at h
      simpa [h] using hb
    · simp only [BallotProtocol.ballots] at h h'
      simpa [h, h'] using hp
    · simp only [BallotProtocol.ballots] at h ⊢
      rw [h] at hc
      cases hh : s.mHighBallot <;> cases hbb : s.mCurrentBallot <;> simp_all
    · simp only [BallotProtocol.ballots] at h ⊢
      cases hph : s.mPhase <;> simp_all [Option.isSome_iff_ne_none]
  · rintro ⟨hb, hp, hc, hphase⟩
    simp only [BallotProtocol.ballots] at hb hp hc hphase
    refine ⟨⟨⟨?_, ?_⟩, ?_⟩, ?_⟩
    · cases h : s.mCurrentBallot <;> simp_all
    · cases h : s.mPrepared <;> cases h' : s.mPreparedPrime <;> simp_all
    · cases h : s.mCommit with
      | none => rfl
      | some c =>
        obtain ⟨hh, b, h1, h2, h3, h4⟩ := hc c h
        simp [h1, h2, h3, h4]
    · cases hph : s.mPhase with
      | PREPARE => rfl
      | CONFIRM => simpa [hph, Option.isSome_iff_ne_none] using hphase
      | EXTERNALIZE =>
        have hne : s.mCommit ≠ none := hphase (by simp [hph])
        obtain ⟨c, h⟩ := Option.ne_none_iff_exists'.mp hne
        obtain ⟨hh, b, h1, -⟩ := hc c h
        simp [h, h1]

/-- The pledges `createStatement` makes of the ballots, unless it meets a null pointer. -/
def Node.pledgesOf (node : Node) (x : Ballots) : Option Pledges :=
  match x.phase with
  | .PREPARE =>
    some (.prepare
      { quorumSetHash := node.qSetHash
        ballot := x.b.getD {}
        prepared := x.p
        preparedPrime := x.p'
        nC := (x.c.map SCPBallot.counter).getD 0
        nH := (x.h.map SCPBallot.counter).getD 0 })
  | .CONFIRM =>
    match x.c, x.h, x.b, x.p with
    | some c, some h, some b, some p =>
      some (.confirm ⟨b, p.counter, c.counter, h.counter, node.qSetHash⟩)
    | _, _, _, _ => none
  | .EXTERNALIZE =>
    match x.c, x.h with
    | some c, some h => some (.externalize ⟨c, h.counter, node.qSetHash⟩)
    | _, _ => none

/-! ## Changes -/

/-- The updates of the ballots. -/
inductive Change where
  | acceptPrepared (ballot : SCPBallot)
  | confirmPrepared (newC newH : SCPBallot)
  | acceptCommit (c h : SCPBallot)
  | confirmCommit (c h : SCPBallot)
  | bump (newb : SCPBallot)

/-- `b`, raised to `h` if it is missing or lower. -/
def raiseTo (b : Option SCPBallot) (h : SCPBallot) : Option SCPBallot :=
  if b.all fun b => decide (b < h) then some h else b

/-- Does accepting `p` and `p'` clear `c`? -/
def clears (h p p' : Option SCPBallot) : Bool :=
  h.any fun h => (p.any fun p => areBallotsLessAndIncompatible h p) ||
    (p'.any fun p' => areBallotsLessAndIncompatible h p')

/-- `b` when a commit up to `h` is accepted in `PREPARE`. -/
def alignTo (b : Option SCPBallot) (h : SCPBallot) : Option SCPBallot :=
  if b.any fun b => !areBallotsLessAndCompatible h b then some h else b

def Change.apply : Change → Ballots → Ballots
  | .acceptPrepared ballot, x =>
    let pp := setPrepared ballot x.p x.p'
    { x with
      p := pp.1
      p' := pp.2.1
      c := if clears x.h pp.1 pp.2.1 then none else x.c }
  | .confirmPrepared newC newH, x =>
    { x with
      h := some newH
      c := if newC.counter ≠ 0 then some newC else x.c
      b := raiseTo x.b newH }
  | .acceptCommit c h, x =>
    if x.phase = .PREPARE then
      { x with phase := .CONFIRM, c := some c, h := some h, p' := none
               b := raiseTo (alignTo x.b h) h }
    else { x with c := some c, h := some h, b := raiseTo x.b h }
  | .confirmCommit c h, x =>
    { x with phase := .EXTERNALIZE, c := some c, h := some h, b := raiseTo x.b h }
  | .bump newb, x => { x with b := some newb }

theorem Change.apply_acceptCommit_prepare {x : Ballots} {c h : SCPBallot}
    (hphase : x.phase = .PREPARE) :
    Change.apply (.acceptCommit c h) x =
      { phase := .CONFIRM, b := raiseTo (alignTo x.b h) h, p := x.p, p' := none, h := some h,
        c := some c } :=
  if_pos hphase

theorem Change.apply_acceptCommit_confirm {x : Ballots} {c h : SCPBallot}
    (hphase : x.phase ≠ .PREPARE) :
    Change.apply (.acceptCommit c h) x =
      { phase := x.phase, b := raiseTo x.b h, p := x.p, p' := x.p', h := some h, c := some c } :=
  if_neg hphase

/-- The three things accepting a ballot can do to `p` and `p'`, when it is neither covered by `p`
nor below `p'`: set `p`, raise `p`, or raise `p'` only. -/
theorem setPrepared_cases {ballot : SCPBallot} {p p' : Option SCPBallot}
    (hp' : ∀ q, p' = some q → q < ballot)
    (hp : ∀ q, p = some q → ¬ (ballot ≤ q ∧ ballot.value = q.value)) :
    (p = none ∧ setPrepared ballot p p' = (some ballot, p', true)) ∨
    (∃ q, p = some q ∧ q < ballot ∧ setPrepared ballot p p' =
      (some ballot, if q.value = ballot.value then p' else some q, true)) ∨
    (∃ q, p = some q ∧ ballot < q ∧ ballot.value ≠ q.value ∧
      setPrepared ballot p p' = (some q, some ballot, true)) := by
  cases p with
  | none => exact Or.inl ⟨rfl, rfl⟩
  | some q =>
    have hq := hp q rfl
    rcases lt_trichotomy q ballot with h | h | h
    · right; left
      refine ⟨q, rfl, h, ?_⟩
      simp [setPrepared, h]
    · exact absurd ⟨h.ge, by rw [h]⟩ hq
    · right; right
      refine ⟨q, rfl, h, fun hv => hq ⟨h.le, hv⟩, ?_⟩
      have hall : (p'.all fun preparedPrime => decide (preparedPrime < ballot)) = true := by
        cases p' with
        | none => rfl
        | some q' => simpa using hp' q' rfl
      simp [setPrepared, h, h.not_gt, hall]

/-! ## Guards -/

/-- A candidate for `hint` that a quorum has prepared. -/
def Node.Confirmed (node : Node) (s : BallotProtocol) (hint : SCPStatement) (β : SCPBallot) :
    Prop :=
  β ∈ getPrepareCandidates s.mLatestEnvelopes hint ∧
    node.isRatified s β = true

/-- The highest confirmed candidate, if it is above `h`. -/
structure Node.IsNewH (node : Node) (s : BallotProtocol) (hint : SCPStatement)
    (newH : SCPBallot) : Prop where
  confirmed : node.Confirmed s hint newH
  above : ∀ h, s.mHighBallot = some h → h < newH
  highest : ∀ β, node.Confirmed s hint β → β ≤ newH

/-- Every candidate between `β` and `newH` is confirmed, and `β` is not below the current
ballot. -/
structure Node.InCommitRun (node : Node) (s : BallotProtocol) (hint : SCPStatement)
    (newH β : SCPBallot) : Prop where
  candidate : β ∈ getPrepareCandidates s.mLatestEnvelopes hint
  le_newH : β ≤ newH
  current_le : s.mCurrentBallot.getD {} ≤ β
  confirmed : ∀ γ ∈ getPrepareCandidates s.mLatestEnvelopes hint, β ≤ γ → γ ≤ newH →
    node.Confirmed s hint γ

/-- The lowest ballot of the run that ends in `newH`. -/
structure Node.IsNewC (node : Node) (s : BallotProtocol) (hint : SCPStatement)
    (newH newC : SCPBallot) : Prop where
  inRun : node.InCommitRun s hint newH newC
  lowest : ∀ β, node.InCommitRun s hint newH β → newC ≤ β

/-- Nothing stands against committing up to `newH`. -/
structure MayCommit (s : BallotProtocol) (newH : SCPBallot) : Prop where
  commit : s.mCommit = none
  prepared : ∀ p, s.mPrepared = some p → ¬ (newH ≤ p ∧ newH.value ≠ p.value)
  preparedPrime : ∀ p', s.mPreparedPrime = some p' → ¬ (newH ≤ p' ∧ newH.value ≠ p'.value)

/-- The statement votes for, or has accepted, a commit of the value `x`. -/
def CommitsTo (x : Value) (st : SCPStatement) : Prop :=
  match st.pledges with
  | .prepare p => p.nC ≠ 0 ∧ p.ballot.value = x
  | .confirm c => c.ballot.value = x
  | .externalize e => e.commit.value = x

/-- What the code has checked before a change. -/
def Guard (node : Node) (V : Value → Prop) (F : Prop) (s : Slot) : Change → Prop
  | .acceptPrepared ballot =>
    s.mPhase ≠ .EXTERNALIZE ∧
    (s.mPhase = .CONFIRM → ∃ p, s.mPrepared = some p ∧ p ≤ ballot ∧ p.value = ballot.value) ∧
    (∀ p', s.mPreparedPrime = some p' → p' < ballot) ∧
    (∀ p, s.mPrepared = some p → ¬ (ballot ≤ p ∧ ballot.value = p.value)) ∧
    (∃ hint, ballot ∈ getPrepareCandidates s.mLatestEnvelopes hint) ∧
    (s.mPhase ≠ .PREPARE → (Change.apply (.acceptPrepared ballot) s.ballots).c = s.mCommit)
  | .confirmPrepared newC newH =>
    s.mPhase = .PREPARE ∧ s.mPrepared ≠ none ∧
    (∃ hint, Event.attemptPreparedConfirmed s.toBallotProtocol hint ∈ s.log ∧
      node.IsNewH s.toBallotProtocol hint newH ∧
      (newC.counter ≠ 0 →
        MayCommit s.toBallotProtocol newH ∧ node.IsNewC s.toBallotProtocol hint newH newC)) ∧
    (F → ∃ p, s.mPrepared = some p ∧ newH ≤ p)
  | .acceptCommit c h =>
    s.mPhase ≠ .EXTERNALIZE ∧ c.counter ≠ 0 ∧ c.counter ≤ h.counter ∧ c.value = h.value ∧
    (s.mPhase = .CONFIRM → ∃ h₀, s.mHighBallot = some h₀ ∧ h₀.value = h.value ∧
      h₀.counter < h.counter) ∧
    (∃ (n : NodeID) (env : SCPEnvelope), s.mLatestEnvelopes[n]? = some env ∧
      CommitsTo h.value env.statement) ∧
    (F → s.mPrepared ≠ none)
  | .confirmCommit c h =>
    s.mPhase = .CONFIRM ∧ c.counter ≠ 0 ∧ c.counter ≤ h.counter ∧ c.value = h.value ∧
    (∃ c₀ h₀, s.mCommit = some c₀ ∧ s.mHighBallot = some h₀ ∧ c₀.value = c.value) ∧
    (∃ ballot check, ballot.value = c.value ∧
      node.federatedRatify (commitPredicate ballot check) s.mLatestEnvelopes = true)
  | .bump newb =>
    s.mPhase ≠ .EXTERNALIZE ∧ newb.counter ≠ 0 ∧
    (∀ b, s.mCurrentBallot = some b → b < newb) ∧
    (∀ c, s.mCommit = some c → c.value = newb.value) ∧
    (∀ h, s.mHighBallot = some h → newb.value = h.value) ∧
    (s.mHighBallot = none →
      V newb.value ∨ ∃ b, s.mCurrentBallot = some b ∧ newb.value = b.value)

/-! ## Steps -/

/-- Calls to the driver that only inform it. -/
def Event.Quiet : Event → Prop
  | .attemptPreparedConfirmed .. => False
  | .emitCurrentStateStatement .. => False
  | .emitEnvelope _ => False
  | .valueExternalized _ => False
  | _ => True

/-- The log grew by quiet events only. -/
def QuietLog (s t : Slot) : Prop :=
  ∃ es : List Event, t.log = s.log ++ es ∧ ∀ e ∈ es, e.Quiet

/-- `t` differs from `s` in nothing the protocol depends on. -/
structure QuietStep (V : Value → Prop) (s t : Slot) : Prop where
  ballots : t.ballots = s.ballots
  envelopes : t.mLatestEnvelopes = s.mLatestEnvelopes
  last : t.mLastEnvelope = s.mLastEnvelope
  lastEmit : t.mLastEnvelopeEmit = s.mLastEnvelopeEmit
  composite : t.mLatestCompositeCandidate = s.mLatestCompositeCandidate ∨
    V t.mLatestCompositeCandidate
  log : QuietLog s t

/-- `t` differs from `s` in its ballots and in quiet events at most. -/
structure Frame (s t : Slot) : Prop where
  envelopes : t.mLatestEnvelopes = s.mLatestEnvelopes
  last : t.mLastEnvelope = s.mLastEnvelope
  lastEmit : t.mLastEnvelopeEmit = s.mLastEnvelopeEmit
  composite : t.mLatestCompositeCandidate = s.mLatestCompositeCandidate
  level : t.mCurrentMessageLevel = s.mCurrentMessageLevel
  log : QuietLog s t

/-- `t` is `s` with a change made, before the statement is emitted. -/
structure Changed (s t : Slot) (ch : Change) : Prop extends Frame s t where
  ballots : t.ballots = ch.apply s.ballots

/-- The checks `processEnvelope` makes before it records an envelope of the node itself, after `n`
events. -/
structure Node.Processable (node : Node) (n : ℕ) (s : BallotProtocol) (st : SCPStatement) :
    Prop where
  sane : node.isStatementSane st true = true
  newer : isNewerStatementFor s.mLatestEnvelopes node.nodeID st = true
  valid : node.validateValues n st ≠ .kInvalidValue
  committed : s.mPhase = .EXTERNALIZE → ∃ c, s.mCommit = some c ∧
    c.value = (getWorkingBallot st).value

/-- The log after a change and the emission of the statement that follows from it. -/
def EmitLog (s t : Slot) (env : SCPEnvelope) : Prop :=
  ∃ (u v : Slot) (bp : BallotProtocol), QuietLog s u ∧
    v.log = u.log ++ [Event.emitCurrentStateStatement bp env] ∧ QuietLog v t ∧
    bp.ballots = t.ballots ∧ bp.mLatestEnvelopes = s.mLatestEnvelopes

/-- A change is made and the node's own statement recorded. -/
structure Node.Published (node : Node) (s t : Slot) (ch : Change) (env : SCPEnvelope) :
    Prop where
  ballots : t.ballots = ch.apply s.ballots
  ok : t.ballots.Ok
  statement : ∃ pledges, node.pledgesOf t.ballots = some pledges ∧
    env = node.createEnvelope pledges
  envelopes : t.mLatestEnvelopes = s.mLatestEnvelopes.insert node.nodeID env
  processable : s.mLatestEnvelopes[node.nodeID]? = some env ∨
    ∃ (bp : BallotProtocol) (n : ℕ), bp.ballots = t.ballots ∧
      bp.mLatestEnvelopes = s.mLatestEnvelopes ∧ s.log.length ≤ n ∧
      t.log[n]? = some (.validateValues env.statement) ∧ node.Processable n bp env.statement
  last : t.mLastEnvelope = s.mLastEnvelope
  lastEmit : t.mLastEnvelopeEmit = s.mLastEnvelopeEmit
  composite : t.mLatestCompositeCandidate = s.mLatestCompositeCandidate
  log : EmitLog s t env

/-- The values that went to `valueExternalized`. -/
def externalized (log : List Event) : List Value :=
  log.filterMap fun
    | .valueExternalized v => some v
    | _ => none

/-- The envelopes that went to `emitEnvelope`. -/
def emitted (log : List Event) : List SCPEnvelope :=
  log.filterMap fun
    | .emitEnvelope env => some env
    | _ => none

/-- The ballots at each emission of a statement. -/
def snapshots (log : List Event) : List Ballots :=
  log.filterMap fun
    | .emitCurrentStateStatement bp _ => some bp.ballots
    | _ => none

/-- An envelope of another node (or one that claims to be the node's own) is recorded. -/
structure Node.Received (node : Node) (V : Value → Prop) (F : Prop) (R : SCPEnvelope → Prop)
    (s t : Slot) (env : SCPEnvelope) : Prop where
  known : R env
  sane : node.isStatementSane env.statement false = true
  newer : isNewerStatementFor s.mLatestEnvelopes env.statement.nodeID env.statement = true
  valid : node.validateValues s.log.length env.statement ≠ .kInvalidValue
  own : F → env.statement.nodeID ≠ node.nodeID
  values : F → ∀ β ∈ mentioned env.statement, V β.value
  ballots : t.ballots = s.ballots
  envelopes : t.mLatestEnvelopes = s.mLatestEnvelopes.insert env.statement.nodeID env
  last : t.mLastEnvelope = s.mLastEnvelope
  lastEmit : t.mLastEnvelopeEmit = s.mLastEnvelopeEmit
  composite : t.mLatestCompositeCandidate = s.mLatestCompositeCandidate
  log : t.log = s.log ++ [.validateValues env.statement]

/-- One transition of a slot. -/
inductive Step (node : Node) (V : Value → Prop) (F : Prop) (R : SCPEnvelope → Prop)
    (inner : Prop) : Slot → Slot → Prop
  | quiet {s t : Slot} (h : QuietStep V s t) : Step node V F R inner s t
  | probe {s : Slot} (hint : SCPStatement) :
    Step node V F R inner s (s.logging (.attemptPreparedConfirmed s.toBallotProtocol hint))
  | publish {s t : Slot} (ch : Change) (env : SCPEnvelope)
    (hbump : inner → ∀ newb, ch ≠ .bump newb) (hg : Guard node V F s ch)
    (h : node.Published s t ch env) : Step node V F R inner s t
  | remember {s : Slot} (env : SCPEnvelope)
    (h : ∀ last, s.mLastEnvelope = some last →
      isNewerStatement last.statement env.statement = true)
    (hlog : ∃ bp, Event.emitCurrentStateStatement bp env ∈ s.log) :
    Step node V F R inner s { s with mLastEnvelope := some env }
  | send {s : Slot} (env : SCPEnvelope) (hlast : s.mLastEnvelope = some env)
    (hemit : s.mLastEnvelopeEmit ≠ some env) :
    Step node V F R inner s
      (Slot.logging { s with mLastEnvelopeEmit := some env } (.emitEnvelope env))
  | externalize {s : Slot} (v : Value) (hphase : s.mPhase = .EXTERNALIZE)
    (hcommit : ∃ c, s.mCommit = some c ∧ c.value = v) (hnone : externalized s.log = []) :
    Step node V F R inner s (s.logging (.valueExternalized v))
  | receive {s t : Slot} (env : SCPEnvelope) (hin : ¬ inner) (h : node.Received V F R s t env) :
    Step node V F R inner s t

/-- A sequence of transitions. -/
def Path (node : Node) (V : Value → Prop) (F : Prop) (R : SCPEnvelope → Prop) (inner : Prop) :
    Slot → Slot → Prop :=
  Relation.ReflTransGen (Step node V F R inner)

/-- A process that dies while it publishes a change. -/
structure Node.PublishCrash (node : Node) (s : Slot) (e : Fault) (t : Slot) (ch : Change) :
    Prop where
  ballots : t.ballots = ch.apply s.ballots
  envelopes : t.mLatestEnvelopes = s.mLatestEnvelopes
  checkInvariants : e = .checkInvariants → ¬ t.ballots.Ok
  log : QuietLog s t ∨ t.ballots.Ok ∧ ∃ pledges, node.pledgesOf t.ballots = some pledges ∧
    EmitLog s t (node.createEnvelope pledges)
  null : e = .nullDeref .createStatement → t.ballots.Ok ∧ node.pledgesOf t.ballots = none
  badState : e = .badState → t.ballots.Ok ∧ ∃ pledges,
    node.pledgesOf t.ballots = some pledges ∧
    s.mLatestEnvelopes[node.nodeID]? ≠ some (node.createEnvelope pledges) ∧
    ∃ n, s.log.length ≤ n ∧
      ¬ node.Processable n t.toBallotProtocol (node.createEnvelope pledges).statement

/-- Where a process can die: while it publishes a change, or at rest and then with its phase and
commit unchanged. -/
inductive Crash (node : Node) (V : Value → Prop) (F : Prop) (s : Slot) (e : Fault) (t : Slot) :
    Prop
  | publish (ch : Change) (hg : Guard node V F s ch) (h : node.PublishCrash s e t ch) :
    Crash node V F s e t
  | rest (hphase : t.mPhase = s.mPhase) (hcommit : t.mCommit = s.mCommit)
    (hlog : QuietLog s t) (hbad : e ≠ .badState) (hnull : e ≠ .nullDeref .createStatement)
    (hinv : e = .checkInvariants → ¬ s.ballots.Ok) : Crash node V F s e t

/-- The process follows a path and then dies. -/
def CrashFrom (node : Node) (V : Value → Prop) (F : Prop) (R : SCPEnvelope → Prop) (s : Slot)
    (e : Fault) (t : Slot) : Prop :=
  ∃ u, Path node V F R False s u ∧ Crash node V F u e t

end SmartCore.SCP
