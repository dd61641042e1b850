import SmartCore.SCP.Counters
import SmartCore.SCP.Persistence

/-!
# How deep the recursion goes

A change of the ballots makes the node process its own statement, which runs `advanceSlot` inside
the first one, which may change the ballots again. The code gives up at
`MAX_ADVANCE_SLOT_RECURSION` nested calls; we show that it never comes to that.

Inside, the hint is always a statement of the node itself, and what such a hint can lead to is
little:

* only ballots compatible with `b` can be accepted as prepared, and after the highest of them
  none of the others is left (`not_mayAccept_of_accept`),
* after a ballot is confirmed as prepared there is none to confirm above it
  (`confirmed_of_confirm`), and nothing new to accept either (`mayAccept_of_confirm`), and
* in `CONFIRM`, after `h` is raised it cannot be raised again (`not_mayRaise_of_raise`).

So a `budget` can be read off the state of the node that every change inside uses up a part of.
It is at most eight (`budget_le`), whatever the outermost hint and the bumps have done.

Main result: `life_never_maxTransitions`, for every life of a process that may have been restarted
from its saved envelope any number of times.
-/

namespace SmartCore.SCP

variable {node : Node} {V : Value → Prop} {F inner : Prop} {R : SCPEnvelope → Prop}
  {s t u w : Slot} {self : SelfProcess} {x : Ballots} {β γ : SCPBallot}

/-! ## Ballots that are settled -/

/-- There is no point in accepting the ballot as prepared: it is not above `p'`, or `p` covers
it. -/
def Ballots.Settled (x : Ballots) (β : SCPBallot) : Prop :=
  (∃ p', x.p' = some p' ∧ β ≤ p') ∨ ∃ p, x.p = some p ∧ β ≤ p ∧ β.value = p.value

theorem Ballots.Settled.of_le (h : x.Settled β) (hle : γ ≤ β) (hv : γ.value = β.value) :
    x.Settled γ := by
  rcases h with ⟨p', hp', hβ⟩ | ⟨p, hp, hβ, hβv⟩
  · exact Or.inl ⟨p', hp', hle.trans hβ⟩
  · exact Or.inr ⟨p, hp, hle.trans hβ, hv.trans hβv⟩

theorem Node.Acceptable.not_settled (h : node.Acceptable s β) : ¬ s.ballots.Settled β := by
  rintro (⟨p', hp', hle⟩ | ⟨p, hp, hle⟩)
  · exact absurd (h.prime_lt p' hp') hle.not_gt
  · exact h.not_covered p hp hle

theorem acceptable_of_not_settled (hconfirm : s.mPhase = .CONFIRM →
      ∃ p, s.mPrepared = some p ∧ p ≤ β ∧ p.value = β.value) (h : ¬ s.ballots.Settled β)
    (hacc : node.federatedAccept (votesToPrepare β) (hasPreparedBallot β) s.mLatestEnvelopes =
      true) : node.Acceptable s β := by
  refine ⟨hconfirm, fun p' hp' => ?_, fun p hp hle => h (Or.inr ⟨p, hp, hle⟩), hacc⟩
  by_contra hle
  exact h (Or.inl ⟨p', hp', not_lt.mp hle⟩)

/-- Accepting a ballot settles it, and nothing that was settled comes up again. -/
theorem settled_acceptPrepared (hg : Guard node V F s (.acceptPrepared β))
    (hbelow : s.ballots.PrimeBelow) :
    (Change.apply (.acceptPrepared β) s.ballots).Settled β ∧
      ∀ γ, s.ballots.Settled γ → (Change.apply (.acceptPrepared β) s.ballots).Settled γ := by
  obtain ⟨-, -, hprime, hcov, -⟩ := hg
  simp only [Ballots.Settled, Change.apply, ballots_p, ballots_p']
  rcases setPrepared_cases hprime hcov with
    ⟨hn, hset⟩ | ⟨q, hq, hlt, hset⟩ | ⟨q, hq, hlt, hne, hset⟩
  · rw [hset]
    refine ⟨Or.inr ⟨β, rfl, le_rfl, rfl⟩, fun γ h => ?_⟩
    rcases h with h | ⟨p, hp, -⟩
    · exact Or.inl h
    · rw [hn] at hp
      cases hp
  · rw [hset]
    refine ⟨Or.inr ⟨β, rfl, le_rfl, rfl⟩, fun γ h => ?_⟩
    by_cases hv : q.value = β.value
    · simp only [hv, if_true]
      rcases h with h | ⟨p, hp, hle, hγv⟩
      · exact Or.inl h
      · obtain rfl : q = p := Option.some.inj (hq.symm.trans hp)
        exact Or.inr ⟨β, rfl, hle.trans hlt.le, hγv.trans hv⟩
    · -- the old `p` takes the place of `p'`
      simp only [hv, if_false]
      rcases h with ⟨p', hp', hle⟩ | ⟨p, hp, hle, -⟩
      · obtain ⟨p, hp, hpp, -⟩ := hbelow p' hp'
        obtain rfl : q = p := Option.some.inj (hq.symm.trans hp)
        exact Or.inl ⟨q, rfl, hle.trans hpp⟩
      · obtain rfl : q = p := Option.some.inj (hq.symm.trans hp)
        exact Or.inl ⟨q, rfl, hle⟩
  · rw [hset]
    refine ⟨Or.inl ⟨β, rfl, le_rfl⟩, fun γ h => ?_⟩
    rcases h with ⟨p', hp', hle⟩ | ⟨p, hp, hle⟩
    · exact Or.inl ⟨β, rfl, hle.trans (hprime p' hp').le⟩
    · obtain rfl : q = p := Option.some.inj (hq.symm.trans hp)
      exact Or.inr ⟨q, rfl, hle⟩

theorem Step.settled (hst : Step node V F R True s t) (hrest : Rest node V F s)
    (ht : t.mPhase = .PREPARE) (h : s.ballots.Settled β) : t.ballots.Settled β := by
  cases hst with
  | quiet hq =>
    rw [hq.ballots]
    exact h
  | probe hint => exact h
  | publish ch env hbump hg hp =>
    have hphase : (ch.apply s.ballots).phase = .PREPARE := by
      rw [← hp.ballots]
      exact ht
    rw [hp.ballots]
    cases ch with
    | acceptPrepared ballot => exact (settled_acceptPrepared hg hrest.prime).2 β h
    | confirmPrepared newC newH => exact h
    | acceptCommit c h' =>
      simp only [Change.apply] at hphase
      split_ifs at hphase with hs
      exact absurd hphase hs
    | confirmCommit c h' => cases hphase
    | bump newb => exact h
  | remember env hn => exact h
  | send env hlast hemit => exact h
  | externalize v hphase hcommit hnone => exact h
  | receive env hin hr => exact absurd trivial hin

/-- What is settled stays settled while the node is in `PREPARE`. -/
theorem Path.settled (h : Path node V F R True s t) (hrest : Rest node V F s)
    (ht : t.mPhase = .PREPARE) (hs : s.ballots.Settled β) : t.ballots.Settled β := by
  induction h with
  | refl => exact hs
  | tail hpath hst ih =>
    exact hst.settled (Path.rest hpath hrest) ht (ih (hst.innerRel.phase ht))

/-! ## The node's own statement -/

/-- The node has recorded the statement of its ballots. -/
structure Node.Stated (node : Node) (s : Slot) (pledges : Pledges) : Prop where
  of_ballots : node.pledgesOf s.ballots = some pledges
  recorded : s.mLatestEnvelopes[node.nodeID]? = some (node.createEnvelope pledges)

theorem Node.Published.stated {ch : Change} {env : SCPEnvelope} (h : node.Published s t ch env) :
    ∃ pledges, node.Stated t pledges ∧ env = node.createEnvelope pledges := by
  obtain ⟨pledges, hpl, rfl⟩ := h.statement
  exact ⟨pledges, ⟨hpl, by rw [h.envelopes, getElem?_insert_self]⟩, rfl⟩

theorem Step.stated {pledges : Pledges} (hst : Step node V F R True s t)
    (h : node.Stated s pledges) : ∃ pledges', node.Stated t pledges' := by
  have hsame : t.ballots = s.ballots → t.mLatestEnvelopes = s.mLatestEnvelopes →
      ∃ pledges', node.Stated t pledges' := fun hb he =>
    ⟨pledges, by rw [hb]; exact h.of_ballots, by rw [he]; exact h.recorded⟩
  cases hst with
  | quiet hq => exact hsame hq.ballots hq.envelopes
  | probe hint => exact hsame rfl rfl
  | publish ch env hbump hg hp =>
    obtain ⟨pledges', hst, -⟩ := hp.stated
    exact ⟨pledges', hst⟩
  | remember env hn => exact hsame rfl rfl
  | send env hlast hemit => exact hsame rfl rfl
  | externalize v hphase hcommit hnone => exact hsame rfl rfl
  | receive env hin hr => exact absurd trivial hin

theorem Path.stated {pledges : Pledges} (h : Path node V F R True s t)
    (hs : node.Stated s pledges) : ∃ pledges', node.Stated t pledges' :=
  h.invariant (P := fun t => ∃ pledges', node.Stated t pledges')
    (fun _ _ hst ⟨_, h⟩ => hst.stated h) ⟨pledges, hs⟩

/-- The pledges of a node in `PREPARE`. -/
def Node.prepareOf (node : Node) (x : Ballots) : Prepare where
  quorumSetHash := node.qSetHash
  ballot := x.b.getD {}
  prepared := x.p
  preparedPrime := x.p'
  nC := (x.c.map SCPBallot.counter).getD 0
  nH := (x.h.map SCPBallot.counter).getD 0

theorem pledgesOf_eq_prepareOf (h : x.phase = .PREPARE) :
    node.pledgesOf x = some (.prepare (node.prepareOf x)) := by
  rw [Node.pledgesOf, h]
  rfl

theorem exists_confirm_of_pledgesOf {pledges : Pledges} (h : x.phase = .CONFIRM)
    (hpl : node.pledgesOf x = some pledges) :
    ∃ c h b p, x.c = some c ∧ x.h = some h ∧ x.b = some b ∧ x.p = some p ∧
      pledges = .confirm ⟨b, p.counter, c.counter, h.counter, node.qSetHash⟩ := by
  rw [Node.pledgesOf, h] at hpl
  simp only at hpl
  split at hpl
  · rename_i c h b p hc hh hb hp
    exact ⟨c, h, b, p, hc, hh, hb, hp, (Option.some.inj hpl).symm⟩
  · cases hpl

/-- When a node says something new, it is accepted only if it was before, unless it is the node
itself that has come to vote for it or to accept it. -/
theorem federatedRatify_of_insert {envs : EnvelopeMap} {env₀ env : SCPEnvelope}
    {voted : SCPStatement → Bool} (h₀ : envs[node.nodeID]? = some env₀)
    (hq : node.getQuorumSetFromStatement env.statement =
      node.getQuorumSetFromStatement env₀.statement)
    (hv : voted env.statement = true → voted env₀.statement = true)
    (h : node.federatedRatify voted (envs.insert node.nodeID env) = true) :
    node.federatedRatify voted envs = true := by
  obtain ⟨U, hU, hslice⟩ := isQuorum_iff.mp h
  refine isQuorum_iff.mpr ⟨U, fun n hn => ?_, hslice⟩
  obtain ⟨env', q, henv', hvote, hqset, hsl⟩ := hU n hn
  by_cases hid : n = node.nodeID
  · rw [hid, getElem?_insert_self] at henv'
    obtain rfl := Option.some.inj henv'
    exact ⟨env₀, q, by rw [hid]; exact h₀, hv hvote, hq ▸ hqset, hsl⟩
  · rw [getElem?_insert_ne (Ne.symm hid)] at henv'
    exact ⟨env', q, henv', hvote, hqset, hsl⟩

theorem federatedAccept_of_insert {envs : EnvelopeMap} {env₀ env : SCPEnvelope}
    {voted accepted : SCPStatement → Bool} (h₀ : envs[node.nodeID]? = some env₀)
    (hq : node.getQuorumSetFromStatement env.statement =
      node.getQuorumSetFromStatement env₀.statement)
    (ha : accepted env.statement = true → accepted env₀.statement = true)
    (hv : voted env.statement = true → voted env₀.statement = true)
    (h : node.federatedAccept voted accepted (envs.insert node.nodeID env) = true) :
    node.federatedAccept voted accepted envs = true := by
  rw [Node.federatedAccept, Bool.or_eq_true] at h ⊢
  rcases h with h | h
  · left
    refine isVBlocking_mono (fun n hn => ?_) h
    obtain ⟨env', henv', hacc⟩ := mem_filterNodes.mp hn
    by_cases hid : n = node.nodeID
    · rw [hid, getElem?_insert_self] at henv'
      obtain rfl := Option.some.inj henv'
      exact mem_filterNodes.mpr ⟨env₀, by rw [hid]; exact h₀, ha hacc⟩
    · rw [getElem?_insert_ne (Ne.symm hid)] at henv'
      exact mem_filterNodes.mpr ⟨env', henv', hacc⟩
  · right
    refine federatedRatify_of_insert h₀ hq (fun hor => ?_) h
    rcases (Bool.or_eq_true _ _).mp hor with hacc | hvot
    · simp [ha hacc]
    · simp [hv hvot]

/-- The candidates that come from the node's own statement, and those that were there before. -/
theorem mem_candidates_insert {envs : EnvelopeMap} {env : SCPEnvelope} {hint : SCPStatement}
    (h : β ∈ getPrepareCandidates (envs.insert node.nodeID env) hint) :
    ∃ τ ∈ hintBallots hint, β ∈ candidatesFrom τ env.statement ∨
      ∃ (n : NodeID) (env' : SCPEnvelope), envs[n]? = some env' ∧
        β ∈ candidatesFrom τ env'.statement := by
  obtain ⟨τ, hτ, n, env', henv', hmem⟩ := mem_getPrepareCandidates.mp h
  refine ⟨τ, hτ, ?_⟩
  by_cases hid : n = node.nodeID
  · rw [hid, getElem?_insert_self] at henv'
    obtain rfl := Option.some.inj henv'
    exact Or.inl hmem
  · rw [getElem?_insert_ne (Ne.symm hid)] at henv'
    exact Or.inr ⟨n, env', henv', hmem⟩

/-! ## What the node's own statement can lead to -/

/-- Its statement draws the node's attention to a ballot that it can accept as prepared. -/
def Node.MayAccept (node : Node) (s : Slot) : Prop :=
  ∃ pledges, node.pledgesOf s.ballots = some pledges ∧
    ∃ β ∈ getPrepareCandidates s.mLatestEnvelopes (node.createEnvelope pledges).statement,
      node.Acceptable s β

/-- … to a ballot above `h` that it can confirm as prepared. -/
def Node.MayConfirm (node : Node) (s : Slot) : Prop :=
  ∃ pledges, node.pledgesOf s.ballots = some pledges ∧
    ∃ β, node.Confirmed s.toBallotProtocol (node.createEnvelope pledges).statement β ∧
      ∀ h, s.mHighBallot = some h → h < β

/-- … to a counter above that of `h` that it can accept to commit. -/
def Node.MayRaise (node : Node) (s : Slot) : Prop :=
  ∃ h, s.mHighBallot = some h ∧ (node.acceptedInterval s.mLatestEnvelopes h).1 ≠ 0 ∧
    h.counter < (node.acceptedInterval s.mLatestEnvelopes h).2

open Classical in
/-- How many more changes can happen, one inside the other. -/
noncomputable def Node.budget (node : Node) (s : Slot) : ℕ :=
  match s.mPhase with
  | .PREPARE => 5 + (if node.MayAccept s then 2 else 0) + (if node.MayConfirm s then 1 else 0)
  | .CONFIRM => 1 + (if node.MayAccept s then 2 else 0) + (if node.MayRaise s then 1 else 0)
  | .EXTERNALIZE => 0

theorem budget_congr (hb : t.ballots = s.ballots)
    (he : t.mLatestEnvelopes = s.mLatestEnvelopes) : node.budget t = node.budget s := by
  have hphase : t.mPhase = s.mPhase := congrArg Ballots.phase hb
  have hp : t.mPrepared = s.mPrepared := congrArg Ballots.p hb
  have hp' : t.mPreparedPrime = s.mPreparedPrime := congrArg Ballots.p' hb
  have hh : t.mHighBallot = s.mHighBallot := congrArg Ballots.h hb
  have hacc (β : SCPBallot) : node.Acceptable t β ↔ node.Acceptable s β := by
    constructor
    · intro h
      exact ⟨hphase ▸ hp ▸ h.confirm, hp' ▸ h.prime_lt, hp ▸ h.not_covered, he ▸ h.accepted⟩
    · intro h
      exact ⟨hphase ▸ hp ▸ h.confirm, hp' ▸ h.prime_lt, hp ▸ h.not_covered, he ▸ h.accepted⟩
  have h₁ : node.MayAccept t = node.MayAccept s := by
    simp only [Node.MayAccept, hb, he, hacc]
  have h₂ : node.MayConfirm t = node.MayConfirm s := by
    simp only [Node.MayConfirm, Node.Confirmed, Node.isRatified, hb, he, hh]
  have h₃ : node.MayRaise t = node.MayRaise s := by
    simp only [Node.MayRaise, he, hh]
  rw [Node.budget, Node.budget, h₁, h₂, h₃, hphase]

theorem budget_le (node : Node) (s : Slot) : node.budget s ≤ 8 := by
  unfold Node.budget
  split
  · split_ifs <;> omega
  · split_ifs <;> omega
  · omega

theorem budget_prepare (h : s.mPhase = .PREPARE) : 5 ≤ node.budget s := by
  rw [Node.budget, h]
  simp only
  omega

theorem budget_confirm (h : s.mPhase = .CONFIRM) : 1 ≤ node.budget s ∧ node.budget s ≤ 4 := by
  rw [Node.budget, h]
  simp only
  split_ifs <;> omega

theorem budget_externalize (h : s.mPhase = .EXTERNALIZE) : node.budget s = 0 := by
  rw [Node.budget, h]

/-! ## Accepting -/

section Prepare

variable (hs : s.mPhase = .PREPARE) (hw : w.mPhase = .PREPARE)
include hs hw

/-- In `PREPARE`, what the node's new statement lets it accept is compatible with `b`, and if `b`
is as before then it could be accepted before. -/
theorem acceptable_before_prepare {env : SCPEnvelope} {pledges pledges₀ : Pledges}
    (hs₀ : node.Stated s pledges₀) (hpl : node.pledgesOf w.ballots = some pledges)
    (henv : env = node.createEnvelope pledges)
    (henvs : w.mLatestEnvelopes = s.mLatestEnvelopes.insert node.nodeID env)
    (hb : w.mCurrentBallot = s.mCurrentBallot)
    (hsettled : ∀ γ, s.ballots.Settled γ → w.ballots.Settled γ)
    (hγ : γ ∈ getPrepareCandidates w.mLatestEnvelopes (node.createEnvelope pledges).statement)
    (hacc : node.Acceptable w γ) :
    γ ∈ getPrepareCandidates s.mLatestEnvelopes (node.createEnvelope pledges₀).statement ∧
      node.Acceptable s γ := by
  obtain rfl : .prepare (node.prepareOf w.ballots) = pledges :=
    Option.some.inj ((pledgesOf_eq_prepareOf hw).symm.trans hpl)
  obtain rfl : .prepare (node.prepareOf s.ballots) = pledges₀ :=
    Option.some.inj ((pledgesOf_eq_prepareOf hs).symm.trans hs₀.of_ballots)
  have hnot := hacc.not_settled
  have htop : (node.prepareOf w.ballots).ballot = (node.prepareOf s.ballots).ballot := by
    show w.mCurrentBallot.getD {} = s.mCurrentBallot.getD {}
    rw [hb]
  have hmem : (node.prepareOf s.ballots).ballot ∈
      hintBallots (node.createEnvelope (.prepare (node.prepareOf s.ballots))).statement := by
    simp [hintBallots, Node.createEnvelope]
  constructor
  · rw [henvs] at hγ
    obtain ⟨τ, hτ, hfrom⟩ := mem_candidates_insert hγ
    have hle : γ ≤ τ ∧ γ.value = τ.value := by
      rcases hfrom with h | ⟨_, _, -, h⟩ <;> exact candidatesFrom_le h
    -- `p` and `p'` lead to nothing that is not settled
    obtain rfl : τ = (node.prepareOf w.ballots).ballot := by
      simp only [hintBallots, Node.createEnvelope, List.mem_append, List.mem_singleton,
        Option.mem_toList] at hτ
      rcases hτ with (hτ | hτ) | hτ
      · exact hτ
      · exact absurd (Or.inr ⟨τ, hτ, hle⟩) hnot
      · exact absurd (Or.inl ⟨τ, hτ, hle.1⟩) hnot
    rw [htop] at hfrom
    refine mem_getPrepareCandidates.mpr ⟨_, hmem, ?_⟩
    rcases hfrom with h | h
    · refine ⟨_, _, hs₀.recorded, ?_⟩
      rw [henv] at h
      simp only [candidatesFrom, Node.createEnvelope, List.mem_filter, List.mem_append,
        List.mem_singleton, Option.mem_toList] at h ⊢
      refine ⟨Or.inl (Or.inl ?_), h.2⟩
      rcases h.1 with (h | h) | h
      · rw [h, htop]
      · exact absurd (Or.inr ⟨γ, h, le_rfl, rfl⟩) hnot
      · exact absurd (Or.inl ⟨γ, h, le_rfl⟩) hnot
    · exact h
  · refine acceptable_of_not_settled (fun hc => ?_) (fun h => hnot (hsettled γ h)) ?_
    · rw [hs] at hc
      cases hc
    · have haccepted := hacc.accepted
      rw [henvs] at haccepted
      refine federatedAccept_of_insert hs₀.recorded (by rw [henv]; rfl) (fun h => ?_) (fun h => ?_)
        haccepted
      · -- what the node has accepted itself is settled
        rw [henv] at h
        simp only [hasPreparedBallot, Node.createEnvelope, Bool.or_eq_true,
          Option.any_eq_true] at h
        rcases h with ⟨p, hp, hle⟩ | ⟨p', hp', hle⟩
        · exact absurd (Or.inr ⟨p, hp, areBallotsLessAndCompatible_iff.mp hle⟩) hnot
        · exact absurd (Or.inl ⟨p', hp', (areBallotsLessAndCompatible_iff.mp hle).1⟩) hnot
      · rw [henv] at h
        simp only [votesToPrepare, Node.createEnvelope] at h ⊢
        rwa [← htop]

end Prepare

/-- In `PREPARE` the node's own statement only leads to ballots that are settled or compatible with
`b`, and not above it. -/
theorem acceptable_le_current {pledges : Pledges} {envs : EnvelopeMap} (hx : x.phase = .PREPARE)
    (hpl : node.pledgesOf x = some pledges)
    (hγ : γ ∈ getPrepareCandidates envs (node.createEnvelope pledges).statement)
    (hnot : ¬ x.Settled γ) : γ ≤ x.b.getD {} ∧ γ.value = (x.b.getD {}).value := by
  obtain rfl : .prepare (node.prepareOf x) = pledges :=
    Option.some.inj ((pledgesOf_eq_prepareOf hx).symm.trans hpl)
  obtain ⟨τ, hτ, n, env, henv, hfrom⟩ := mem_getPrepareCandidates.mp hγ
  have hle := candidatesFrom_le hfrom
  simp only [hintBallots, Node.createEnvelope, List.mem_append, List.mem_singleton,
    Option.mem_toList] at hτ
  rcases hτ with (rfl | hτ) | hτ
  · exact hle
  · exact absurd (Or.inr ⟨τ, hτ, hle⟩) hnot
  · exact absurd (Or.inl ⟨τ, hτ, hle.1⟩) hnot

/-- In `CONFIRM`, what the node's new statement lets it accept could be accepted before, if `p` has
not gone back and the value of `b` is as before. -/
theorem acceptable_before_confirm (hs : s.mPhase = .CONFIRM) (hw : w.mPhase = .CONFIRM)
    {env : SCPEnvelope} {pledges pledges₀ : Pledges}
    (hs₀ : node.Stated s pledges₀) (hpl : node.pledgesOf w.ballots = some pledges)
    (henv : env = node.createEnvelope pledges)
    (henvs : w.mLatestEnvelopes = s.mLatestEnvelopes.insert node.nodeID env)
    (hb : w.mCurrentBallot.map SCPBallot.value = s.mCurrentBallot.map SCPBallot.value)
    (hp : ∀ p q, s.mPrepared = some p → w.mPrepared = some q → p ≤ q ∧ p.value = q.value)
    (hsettled : ∀ γ, s.ballots.Settled γ → w.ballots.Settled γ)
    (hγ : γ ∈ getPrepareCandidates w.mLatestEnvelopes (node.createEnvelope pledges).statement)
    (hacc : node.Acceptable w γ) :
    γ ∈ getPrepareCandidates s.mLatestEnvelopes (node.createEnvelope pledges₀).statement ∧
      node.Acceptable s γ := by
  obtain ⟨c, h, b, q, hwc, hwh, hwb, hwp, rfl⟩ :=
    exists_confirm_of_pledgesOf hw hpl
  obtain ⟨c₀, h₀, b₀, p, hsc, hsh, hsb, hsp, rfl⟩ :=
    exists_confirm_of_pledgesOf hs hs₀.of_ballots
  simp only [ballots_b, ballots_p] at hwb hwp hsb hsp
  have hnot := hacc.not_settled
  have hv : b.value = b₀.value := by
    rw [hwb, hsb] at hb
    exact Option.some.inj hb
  obtain ⟨q', hq', hqγ, hqv⟩ := hacc.confirm hw
  obtain rfl : q = q' := Option.some.inj (hwp.symm.trans hq')
  -- what is not above `p`, at the value of `b`, is covered by `p`
  have hcovered (hγv : γ.value = b.value) : ¬ γ ≤ ⟨q.counter, b.value⟩ := by
    intro hle
    have hq : (⟨q.counter, b.value⟩ : SCPBallot) = q :=
      SCPBallot.ext_of_le (hγv.symm.trans hqv.symm) rfl
    rw [hq] at hle
    exact hnot (Or.inr ⟨q, hwp, hle, hqv.symm⟩)
  have hmem : (⟨UINT32_MAX, b.value⟩ : SCPBallot) ∈ hintBallots (node.createEnvelope
      (.confirm ⟨b₀, p.counter, c₀.counter, h₀.counter, node.qSetHash⟩)).statement := by
    simp [hintBallots, Node.createEnvelope, hv]
  have hγv : γ.value = b.value := by
    obtain ⟨τ, hτ, n, env', -, hfrom⟩ := mem_getPrepareCandidates.mp hγ
    have hle := candidatesFrom_le hfrom
    simp only [hintBallots, Node.createEnvelope, List.mem_cons, List.not_mem_nil, or_false] at hτ
    rcases hτ with rfl | rfl <;> exact hle.2
  constructor
  · rw [henvs] at hγ
    obtain ⟨τ, hτ, hfrom⟩ := mem_candidates_insert hγ
    have hle : γ ≤ τ ∧ γ.value = τ.value := by
      rcases hfrom with h | ⟨_, _, -, h⟩ <;> exact candidatesFrom_le h
    obtain rfl : τ = ⟨UINT32_MAX, b.value⟩ := by
      simp only [hintBallots, Node.createEnvelope, List.mem_cons, List.not_mem_nil,
        or_false] at hτ
      rcases hτ with rfl | rfl
      · exact absurd hle.1 (hcovered hγv)
      · rfl
    refine mem_getPrepareCandidates.mpr ⟨_, hmem, ?_⟩
    rcases hfrom with hown | hother
    · refine ⟨_, _, hs₀.recorded, ?_⟩
      have hγτ : γ = ⟨UINT32_MAX, b.value⟩ := by
        rw [henv] at hown
        simp only [candidatesFrom, Node.createEnvelope] at hown
        split_ifs at hown with hcompat hlt
        · rcases List.mem_pair.mp hown with h | h
          · exact h
          · exact absurd h.le (hcovered hγv)
        · exact List.mem_singleton.mp hown
        · cases hown
      rw [hγτ]
      simp only [candidatesFrom, Node.createEnvelope]
      have hcompat : areBallotsCompatible ⟨UINT32_MAX, b.value⟩ b₀ = true :=
        areBallotsCompatible_iff.mpr hv
      rw [if_pos hcompat]
      split_ifs <;> exact List.mem_cons_self
    · exact hother
  · refine acceptable_of_not_settled (fun _ => ⟨p, hsp, ?_⟩) (fun h => hnot (hsettled γ h)) ?_
    · obtain ⟨hpq, hpv⟩ := hp p q hsp hwp
      exact ⟨hpq.trans hqγ, hpv.trans hqv⟩
    · have haccepted := hacc.accepted
      rw [henvs] at haccepted
      refine federatedAccept_of_insert hs₀.recorded (by rw [henv]; rfl) (fun h => ?_) (fun h => ?_)
        haccepted
      · rw [henv] at h
        simp only [hasPreparedBallot, Node.createEnvelope] at h
        exact absurd (areBallotsLessAndCompatible_iff.mp h).1 (hcovered hγv)
      · simp only [votesToPrepare, Node.createEnvelope]
        exact areBallotsCompatible_iff.mpr (hγv.trans hv)

/-- **After the highest ballot is accepted, nothing is left to accept.** -/
theorem not_mayAccept_of_accept {env : SCPEnvelope} {pledges : Pledges} (hrest : Rest node V F s)
    (hs : node.Stated s pledges) (hg : Guard node V F s (.acceptPrepared β))
    (hβ : β ∈ getPrepareCandidates s.mLatestEnvelopes (node.createEnvelope pledges).statement)
    (hacc : node.Acceptable s β)
    (hfirst : ∀ γ ∈ getPrepareCandidates s.mLatestEnvelopes (node.createEnvelope pledges).statement,
      β < γ → ¬ node.Acceptable s γ)
    (hpub : node.Published s w (.acceptPrepared β) env) : ¬ node.MayAccept w := by
  rintro ⟨pledges', hpl', γ, hγ, hγacc⟩
  obtain ⟨pledges₁, hst, henv⟩ := hpub.stated
  obtain rfl : pledges' = pledges₁ := Option.some.inj (hpl'.symm.trans hst.of_ballots)
  obtain ⟨hself, hsettled⟩ := settled_acceptPrepared hg hrest.prime
  rw [← hpub.ballots] at hself hsettled
  have hphase : w.mPhase = s.mPhase := congrArg Ballots.phase hpub.ballots
  have hb : w.mCurrentBallot = s.mCurrentBallot := congrArg Ballots.b hpub.ballots
  -- a ballot compatible with `β` that could be accepted is not above it, hence settled
  have hdone (hmem : γ ∈ getPrepareCandidates s.mLatestEnvelopes
      (node.createEnvelope pledges).statement) (hγs : node.Acceptable s γ)
      (hv : γ.value = β.value) : False := by
    have hle : γ ≤ β := not_lt.mp fun hlt => hfirst γ hmem hlt hγs
    exact hγacc.not_settled (hself.of_le hle hv)
  cases hph : s.mPhase with
  | PREPARE =>
    obtain ⟨hmem, hγs⟩ := acceptable_before_prepare hph (hphase.trans hph) hs hpl' henv
      hpub.envelopes hb hsettled hγ hγacc
    refine hdone hmem hγs ?_
    rw [(acceptable_le_current hph hs.of_ballots hmem hγs.not_settled).2,
      (acceptable_le_current hph hs.of_ballots hβ hacc.not_settled).2]
  | CONFIRM =>
    obtain ⟨p, hp, hpβ, hpv⟩ := hacc.confirm hph
    have hlt : p < β := lt_of_le_of_ne hpβ fun heq =>
      hacc.not_covered p hp ⟨heq.symm.le, hpv.symm⟩
    have hwp : w.mPrepared = some β := by
      rw [← ballots_p, hpub.ballots]
      simp [Change.apply, setPrepared, hp, hlt]
    have hpq : ∀ p' q, s.mPrepared = some p' → w.mPrepared = some q →
        p' ≤ q ∧ p'.value = q.value := by
      intro p' q hp' hq
      obtain rfl : p = p' := Option.some.inj (hp.symm.trans hp')
      obtain rfl : β = q := Option.some.inj (hwp.symm.trans hq)
      exact ⟨hpβ, hpv⟩
    obtain ⟨hmem, hγs⟩ := acceptable_before_confirm hph (hphase.trans hph) hs hpl' henv
      hpub.envelopes (by rw [hb]) hpq hsettled hγ hγacc
    obtain ⟨q, hq, -, hqv⟩ := hγacc.confirm (hphase.trans hph)
    obtain rfl : β = q := Option.some.inj (hwp.symm.trans hq)
    exact hdone hmem hγs hqv.symm
  | EXTERNALIZE => exact hg.1 hph

/-! ## Confirming -/

section Confirm

variable {newC newH : SCPBallot} {env : SCPEnvelope} {pledges : Pledges}
  (hs : node.Stated s pledges) (hg : Guard node V F s (.confirmPrepared newC newH))
  (hpub : node.Published s w (.confirmPrepared newC newH) env)
include hpub

/-- Confirming a ballot raises `b` to it, or leaves `b` alone. -/
theorem current_of_confirm :
    (w.mCurrentBallot = some newH ∧ ∀ b, s.mCurrentBallot = some b → b < newH) ∨
      w.mCurrentBallot = s.mCurrentBallot := by
  have hb : w.mCurrentBallot = raiseTo s.mCurrentBallot newH := congrArg Ballots.b hpub.ballots
  rcases raiseTo_cases s.mCurrentBallot newH with ⟨heq, hlt⟩ | ⟨-, -, -, heq⟩
  · exact Or.inl ⟨hb.trans heq, hlt⟩
  · exact Or.inr (hb.trans heq)

include hs hg

/-- **Confirming a ballot makes nothing acceptable.** The hint is a statement the node has made
earlier, so the ballot is not above the current one, or settled. -/
theorem mayAccept_of_confirm {s₀ : Slot} {pledges₀ : Pledges} (hrest : Rest node V F s₀)
    (hok : s₀.ballots.Ok) (hpath : Path node V F R True s₀ s) (hs₀ : node.Stated s₀ pledges₀)
    (hnew : newH ∈ getPrepareCandidates s.mLatestEnvelopes (node.createEnvelope pledges₀).statement)
    (h : node.MayAccept w) : node.MayAccept s := by
  have hphase : s.mPhase = .PREPARE := hg.1
  have hphase₀ : s₀.mPhase = .PREPARE := hpath.innerRel.phase hphase
  have hw : w.mPhase = .PREPARE := (congrArg Ballots.phase hpub.ballots).trans hphase
  obtain ⟨pledges', hpl', γ, hγ, hacc⟩ := h
  obtain ⟨pledges₁, hst, henv⟩ := hpub.stated
  obtain rfl : pledges' = pledges₁ := Option.some.inj (hpl'.symm.trans hst.of_ballots)
  have hsettled : ∀ γ, s.ballots.Settled γ → w.ballots.Settled γ := by
    intro γ h
    rw [hpub.ballots]
    exact h
  rcases current_of_confirm hpub with ⟨hb, hlt⟩ | hb
  · exfalso
    have hle := acceptable_le_current hw hpl' hγ hacc.not_settled
    rw [ballots_b, hb] at hle
    by_cases hset : s₀.ballots.Settled newH
    · exact hacc.not_settled
        ((hsettled newH (hpath.settled hrest hphase hset)).of_le hle.1 hle.2)
    · have hle₀ := (acceptable_le_current hphase₀ hs₀.of_ballots hnew hset).1
      cases hb₀ : s₀.mCurrentBallot with
      | none =>
        rw [ballots_b, hb₀] at hle₀
        exact hpub.ok.counter_ne newH hb (Fin.le_zero_iff.mp (SCPBallot.counter_le hle₀))
      | some b₀ =>
        rw [ballots_b, hb₀] at hle₀
        obtain ⟨b, hsb, hle'⟩ := (hpath.since hok).2 (fun _ => hphase) b₀ hb₀
        exact absurd (hlt b hsb) (hle₀.trans hle').not_gt
  · obtain ⟨hmem, hγs⟩ :=
      acceptable_before_prepare hphase hw hs hpl' henv hpub.envelopes hb hsettled
      hγ hacc
    exact ⟨pledges, hs.of_ballots, γ, hmem, hγs⟩

/-- **Whatever can be confirmed next could be confirmed before.** -/
theorem confirmed_of_confirm (h : node.MayConfirm w) :
    ∃ γ, node.Confirmed s.toBallotProtocol (node.createEnvelope pledges).statement γ ∧
      newH < γ := by
  have hphase : s.mPhase = .PREPARE := hg.1
  have hw : w.mPhase = .PREPARE := (congrArg Ballots.phase hpub.ballots).trans hphase
  obtain ⟨pledges', hpl', γ, ⟨hγ, hrat⟩, habove⟩ := h
  obtain ⟨pledges₁, hst, henv⟩ := hpub.stated
  obtain rfl : pledges' = pledges₁ := Option.some.inj (hpl'.symm.trans hst.of_ballots)
  obtain rfl : .prepare (node.prepareOf w.ballots) = pledges' :=
    Option.some.inj ((pledgesOf_eq_prepareOf hw).symm.trans hpl')
  obtain rfl : .prepare (node.prepareOf s.ballots) = pledges :=
    Option.some.inj ((pledgesOf_eq_prepareOf hphase).symm.trans hs.of_ballots)
  have hlt : newH < γ := habove newH (congrArg Ballots.h hpub.ballots)
  have hp : w.mPrepared = s.mPrepared := congrArg Ballots.p hpub.ballots
  have hp' : w.mPreparedPrime = s.mPreparedPrime := congrArg Ballots.p' hpub.ballots
  refine ⟨γ, ⟨?_, ?_⟩, hlt⟩
  · -- a ballot of the new statement that is above `newH` is one of the old statement
    have hold (τ : SCPBallot) (hτ : τ ∈ hintBallots
        (node.createEnvelope (.prepare (node.prepareOf w.ballots))).statement) (hle : newH < τ) :
        τ ∈ hintBallots (node.createEnvelope (.prepare (node.prepareOf s.ballots))).statement := by
      simp only [hintBallots, Node.createEnvelope, Node.prepareOf, ballots_b, ballots_p,
        ballots_p', hp, hp', List.mem_append, List.mem_singleton, Option.mem_toList] at hτ ⊢
      rcases hτ with (rfl | hτ) | hτ
      · rcases current_of_confirm hpub with ⟨hb, -⟩ | hb
        · rw [hb] at hle
          exact absurd hle (lt_irrefl _)
        · rw [hb]
          exact Or.inl (Or.inl rfl)
      · exact Or.inl (Or.inr hτ)
      · exact Or.inr hτ
    rw [hpub.envelopes] at hγ
    obtain ⟨τ, hτ, hfrom⟩ := mem_candidates_insert hγ
    have hle : γ ≤ τ ∧ γ.value = τ.value := by
      rcases hfrom with h | ⟨_, _, -, h⟩ <;> exact candidatesFrom_le h
    refine mem_getPrepareCandidates.mpr ⟨τ, hold τ hτ (hlt.trans_le hle.1), ?_⟩
    rcases hfrom with hown | hother
    · refine ⟨_, _, hs.recorded, ?_⟩
      rw [henv] at hown
      have hmem : γ ∈ hintBallots
          (node.createEnvelope (.prepare (node.prepareOf w.ballots))).statement :=
        (List.mem_filter.mp hown).1
      exact List.mem_filter.mpr ⟨hold γ hmem hlt, (List.mem_filter.mp hown).2⟩
    · exact hother
  · have hrat' : node.federatedRatify (hasPreparedBallot γ) w.mLatestEnvelopes = true := hrat
    rw [hpub.envelopes] at hrat'
    refine federatedRatify_of_insert hs.recorded (by rw [henv]; rfl) (fun hv => ?_) hrat'
    rw [henv] at hv
    simp only [hasPreparedBallot, Node.createEnvelope, Node.prepareOf, ballots_p, ballots_p', hp,
      hp'] at hv ⊢
    exact hv

end Confirm

/-! ## Raising `h` -/

theorem acceptedInterval_congr {envs : EnvelopeMap} (hv : β.value = γ.value) :
    node.acceptedInterval envs β = node.acceptedInterval envs γ := by
  have hb : commitBoundaries β = commitBoundaries γ := by
    funext st
    unfold commitBoundaries
    simp only [areBallotsCompatible, hv]
    rfl
  have hc (cur : Interval) : commitPredicate β cur = commitPredicate γ cur := by
    funext st
    simp only [commitPredicate, areBallotsCompatible, hv]
  have hvote (cur : Interval) : votesToCommit β cur = votesToCommit γ cur := by
    funext st
    simp only [votesToCommit, areBallotsCompatible, hv]
  simp only [Node.acceptedInterval, getCommitBoundariesFromStatements, hb, hc, hvote]

theorem mem_commitBoundaries {envs : EnvelopeMap} {b : Uint32} :
    b ∈ (getCommitBoundariesFromStatements envs β).toList.reverse ↔
      ∃ (n : NodeID) (env : SCPEnvelope), envs[n]? = some env ∧
        b ∈ commitBoundaries β env.statement := by
  simp only [getCommitBoundariesFromStatements, List.mem_reverse, Std.ExtTreeSet.mem_toList,
    Std.ExtTreeSet.mem_ofList, List.contains_iff_mem, List.mem_flatMap, Prod.exists,
    Std.ExtTreeMap.mem_toList_iff_getElem?_eq_some]

/-- The high end of the interval is the highest counter that can be accepted. -/
theorem acceptedInterval_high {envs : EnvelopeMap} (hne : (node.acceptedInterval envs β).1 ≠ 0) :
    (∃ (n : NodeID) (env : SCPEnvelope), envs[n]? = some env ∧
      (node.acceptedInterval envs β).2 ∈ commitBoundaries β env.statement) ∧
    node.federatedAccept
      (votesToCommit β ((node.acceptedInterval envs β).2, (node.acceptedInterval envs β).2))
      (commitPredicate β ((node.acceptedInterval envs β).2, (node.acceptedInterval envs β).2)) envs =
      true ∧
    ∀ b, (∃ (n : NodeID) (env : SCPEnvelope), envs[n]? = some env ∧
        b ∈ commitBoundaries β env.statement) →
      node.federatedAccept (votesToCommit β (b, b)) (commitPredicate β (b, b)) envs = true →
      b ≤ (node.acceptedInterval envs β).2 := by
  obtain ⟨hmem, hacc, hmax⟩ :=
    (findExtendedInterval_high (boundariesDesc_pairwise envs β) hne).2 rfl
  exact ⟨mem_commitBoundaries.mp hmem, hacc, fun b hb => hmax b (mem_commitBoundaries.mpr hb)⟩

section Raise

variable {c h : SCPBallot} {env : SCPEnvelope} {pledges : Pledges} {ballot : SCPBallot}
  (hs : node.Stated s pledges) (hphase : s.mPhase = .CONFIRM) (hok : s.ballots.Ok)
  (hg : Guard node V F s (.acceptCommit c h)) (hpub : node.Published s w (.acceptCommit c h) env)
include hs hphase hok hg hpub

/-- **After `h` is raised there is nothing to raise it to.** The new statement speaks of no counter
above the new `h`, and the old one voted for all of them. -/
theorem not_mayRaise_of_raise (hv : ballot.value = h.value)
    (hne : (node.acceptedInterval s.mLatestEnvelopes ballot).1 ≠ 0)
    (hhigh : (node.acceptedInterval s.mLatestEnvelopes ballot).2 = h.counter) :
    ¬ node.MayRaise w := by
  rintro ⟨h', hh', hne', hlt⟩
  rw [acceptedInterval_congr hv] at hne hhigh
  have happly := hpub.ballots
  rw [Change.apply_acceptCommit_confirm (by rw [ballots_phase, hphase]; simp)] at happly
  obtain rfl : h = h' := Option.some.inj ((congrArg Ballots.h happly).symm.trans hh')
  obtain ⟨pledges', hst, henv⟩ := hpub.stated
  obtain ⟨c₁, h₁, b, p, hwc, hwh, hwb, -, rfl⟩ :=
    exists_confirm_of_pledgesOf ((congrArg Ballots.phase happly).trans hphase) hst.of_ballots
  obtain rfl : c = c₁ := Option.some.inj ((congrArg Ballots.c happly).symm.trans hwc)
  obtain rfl : h = h₁ := Option.some.inj ((congrArg Ballots.h happly).symm.trans hwh)
  obtain ⟨c₀, h₀, b₀, p₀, hsc, hsh, hsb, -, rfl⟩ :=
    exists_confirm_of_pledgesOf hphase hs.of_ballots
  obtain ⟨-, -, hch, -, hraise, -⟩ := hg
  obtain ⟨h₀', hh₀, hv₀, hlt₀⟩ := hraise hphase
  obtain rfl : h₀ = h₀' := Option.some.inj (hsh.symm.trans hh₀)
  obtain ⟨hk, bk, hhk, hbk, hcle, hble⟩ := hok.commit c₀ hsc
  obtain rfl : h₀ = hk := Option.some.inj (hsh.symm.trans hhk)
  obtain rfl : b₀ = bk := Option.some.inj (hsb.symm.trans hbk)
  obtain ⟨⟨n, env', henv', hmem⟩, hacc, -⟩ := acceptedInterval_high hne'
  generalize (node.acceptedInterval w.mLatestEnvelopes h).2 = j at hlt hmem hacc
  have hbound : ∃ (n : NodeID) (env : SCPEnvelope), s.mLatestEnvelopes[n]? = some env ∧
      j ∈ commitBoundaries h env.statement := by
    refine ⟨n, env', ?_, hmem⟩
    rw [hpub.envelopes] at henv'
    by_cases hid : n = node.nodeID
    · rw [hid, getElem?_insert_self] at henv'
      obtain rfl := Option.some.inj henv'
      rw [henv] at hmem
      simp only [commitBoundaries, Node.createEnvelope] at hmem
      split_ifs at hmem
      · rcases List.mem_pair.mp hmem with rfl | rfl
        · exact absurd hlt hch.not_gt
        · exact absurd hlt (lt_irrefl _)
      · cases hmem
    · rwa [getElem?_insert_ne (Ne.symm hid)] at henv'
  refine absurd ((acceptedInterval_high hne).2.2 j hbound ?_) (by rw [hhigh]; exact hlt.not_ge)
  rw [hpub.envelopes] at hacc
  refine federatedAccept_of_insert hs.recorded (by rw [henv]; rfl) (fun h => ?_) (fun _ => ?_) hacc
  · rw [henv] at h
    simp only [commitPredicate, Node.createEnvelope, Bool.and_eq_true, decide_eq_true_eq] at h
    exact absurd hlt h.2.2.not_gt
  · simp only [votesToCommit, Node.createEnvelope, Bool.and_eq_true, decide_eq_true_eq,
      areBallotsCompatible_iff]
    exact ⟨hv₀.symm.trans hble.2, (SCPBallot.counter_le hcle.1).trans (hlt₀.trans hlt).le⟩

/-- **Raising `h` makes nothing acceptable.** -/
theorem mayAccept_of_raise (hmay : node.MayAccept w) : node.MayAccept s := by
  have happly := hpub.ballots
  rw [Change.apply_acceptCommit_confirm (by rw [ballots_phase, hphase]; simp)] at happly
  have hp : w.mPrepared = s.mPrepared := congrArg Ballots.p happly
  have hp' : w.mPreparedPrime = s.mPreparedPrime := congrArg Ballots.p' happly
  have hw : w.mPhase = .CONFIRM := (congrArg Ballots.phase happly).trans hphase
  obtain ⟨pledges', hpl', γ, hγ, hacc⟩ := hmay
  obtain ⟨pledges₁, hst, henv⟩ := hpub.stated
  obtain rfl : pledges' = pledges₁ := Option.some.inj (hpl'.symm.trans hst.of_ballots)
  have hb : w.mCurrentBallot.map SCPBallot.value = s.mCurrentBallot.map SCPBallot.value := by
    obtain ⟨-, -, -, -, hraise, -⟩ := hg
    obtain ⟨h₀, hh₀, hv₀, -⟩ := hraise hphase
    obtain ⟨c₀, hc₀⟩ := Option.ne_none_iff_exists'.mp (hok.committed (by simp [hphase]))
    obtain ⟨hk, b, hhk, hsb, -, -, hbv⟩ := hok.commit c₀ hc₀
    obtain rfl : h₀ = hk := Option.some.inj (hh₀.symm.trans hhk)
    obtain ⟨hk', b', hhk', hwb, -, -, hbv'⟩ := hpub.ok.commit c (congrArg Ballots.c happly)
    obtain rfl : h = hk' := Option.some.inj ((congrArg Ballots.h happly).symm.trans hhk')
    rw [ballots_b] at hsb hwb
    rw [hsb, hwb, Option.map_some, Option.map_some, ← hbv, ← hbv', hv₀]
  obtain ⟨hmem, hγs⟩ := acceptable_before_confirm hphase hw hs hpl' henv hpub.envelopes hb
    (fun p q hsp hwq => by
      obtain rfl : p = q := Option.some.inj (hsp.symm.trans (hp.symm.trans hwq))
      exact ⟨le_rfl, rfl⟩)
    (fun γ hset => by rwa [Ballots.Settled, ballots_p, ballots_p', hp, hp']) hγ hacc
  exact ⟨pledges, hs.of_ballots, γ, hmem, hγs⟩

end Raise

/-! ## The budget is used up -/

theorem budget_lt_of_accept {env : SCPEnvelope} {pledges : Pledges} (hrest : Rest node V F s)
    (hs : node.Stated s pledges) (hg : Guard node V F s (.acceptPrepared β))
    (hβ : β ∈ getPrepareCandidates s.mLatestEnvelopes (node.createEnvelope pledges).statement)
    (hacc : node.Acceptable s β)
    (hfirst : ∀ γ ∈ getPrepareCandidates s.mLatestEnvelopes (node.createEnvelope pledges).statement,
      β < γ → ¬ node.Acceptable s γ)
    (hpub : node.Published s w (.acceptPrepared β) env) : node.budget w < node.budget s := by
  have hnot : ¬ node.MayAccept w := not_mayAccept_of_accept hrest hs hg hβ hacc hfirst hpub
  have hmay : node.MayAccept s := ⟨pledges, hs.of_ballots, β, hβ, hacc⟩
  have hphase : w.mPhase = s.mPhase := congrArg Ballots.phase hpub.ballots
  rw [Node.budget, Node.budget, hphase, if_pos hmay, if_neg hnot]
  cases hph : s.mPhase with
  | PREPARE =>
    simp only
    split_ifs <;> omega
  | CONFIRM =>
    simp only
    split_ifs <;> omega
  | EXTERNALIZE => exact absurd hph hg.1

/-- Confirming, when the hint is a statement that the node made earlier. -/
theorem budget_le_of_confirm {newC newH : SCPBallot} {env : SCPEnvelope} {s₀ : Slot}
    {pledges pledges₀ : Pledges} (hs : node.Stated s pledges)
    (hg : Guard node V F s (.confirmPrepared newC newH))
    (hpub : node.Published s w (.confirmPrepared newC newH) env) (hrest : Rest node V F s₀)
    (hok : s₀.ballots.Ok) (hpath : Path node V F R True s₀ s) (hs₀ : node.Stated s₀ pledges₀)
    (hnew : node.IsNewH s.toBallotProtocol (node.createEnvelope pledges₀).statement newH) :
    node.budget w ≤ node.budget s ∧
      (pledges = pledges₀ → node.budget w < node.budget s) := by
  have hphase : s.mPhase = .PREPARE := hg.1
  have hw : w.mPhase = .PREPARE := (congrArg Ballots.phase hpub.ballots).trans hphase
  have haccept : node.MayAccept w → node.MayAccept s :=
    mayAccept_of_confirm hs hg hpub hrest hok hpath hs₀ hnew.confirmed.1
  have hconfirm : node.MayConfirm w → node.MayConfirm s := by
    intro h
    obtain ⟨γ, hγ, hlt⟩ := confirmed_of_confirm hs hg hpub h
    exact ⟨pledges, hs.of_ballots, γ, hγ, fun h hh => (hnew.above h hh).trans hlt⟩
  rw [Node.budget, Node.budget, hphase, hw]
  simp only
  constructor
  · split_ifs <;> first | omega | tauto
  · rintro rfl
    have hmay : node.MayConfirm s := ⟨pledges, hs.of_ballots, newH, hnew.confirmed, hnew.above⟩
    have hnot : ¬ node.MayConfirm w := by
      intro h
      obtain ⟨γ, hγ, hlt⟩ := confirmed_of_confirm hs hg hpub h
      exact absurd (hnew.highest γ hγ) hlt.not_ge
    rw [if_pos hmay, if_neg hnot]
    split_ifs <;> first | omega | tauto

theorem budget_lt_of_acceptCommit {i : Interval} {ballot : SCPBallot} {env : SCPEnvelope}
    {pledges : Pledges} (hs : node.Stated s pledges) (hok : s.ballots.Ok)
    (hi : i = node.acceptedInterval s.mLatestEnvelopes ballot) (hne : i.1 ≠ 0)
    (hg : Guard node V F s (.acceptCommit ⟨i.1, ballot.value⟩ ⟨i.2, ballot.value⟩))
    (hpub : node.Published s w (.acceptCommit ⟨i.1, ballot.value⟩ ⟨i.2, ballot.value⟩) env) :
    node.budget w < node.budget s := by
  cases hphase : s.mPhase with
  | PREPARE =>
    have hw : w.mPhase = .CONFIRM := by
      rw [← ballots_phase, hpub.ballots, Change.apply_acceptCommit_prepare hphase]
    have h₁ : 5 ≤ node.budget s := budget_prepare hphase
    have h₂ : node.budget w ≤ 4 := (budget_confirm hw).2
    omega
  | CONFIRM =>
    have hw : w.mPhase = .CONFIRM := by
      rw [← ballots_phase, hpub.ballots,
        Change.apply_acceptCommit_confirm (by rw [ballots_phase, hphase]; simp)]
      exact hphase
    have haccept : node.MayAccept w → node.MayAccept s := mayAccept_of_raise hs hphase hok hg hpub
    have hnot : ¬ node.MayRaise w := not_mayRaise_of_raise hs hphase hok hg hpub rfl (hi ▸ hne)
      (congrArg Prod.snd hi).symm
    obtain ⟨h₀, hh₀, hv₀, hlt⟩ := hg.2.2.2.2.1 hphase
    have hmay : node.MayRaise s := by
      refine ⟨h₀, hh₀, ?_⟩
      have hsame : node.acceptedInterval s.mLatestEnvelopes h₀ = i := by
        rw [hi]
        exact acceptedInterval_congr hv₀
      rw [hsame]
      exact ⟨hne, hlt⟩
    rw [Node.budget, Node.budget, hphase, hw]
    simp only
    rw [if_pos hmay, if_neg hnot]
    split_ifs <;> first | omega | tauto
  | EXTERNALIZE => exact absurd hphase hg.1

theorem budget_lt_of_confirmCommit {c h : SCPBallot} {env : SCPEnvelope}
    (hg : Guard node V F s (.confirmCommit c h))
    (hpub : node.Published s w (.confirmCommit c h) env) : node.budget w < node.budget s := by
  have hw : w.mPhase = .EXTERNALIZE := congrArg Ballots.phase hpub.ballots
  have hs : 1 ≤ node.budget s := (budget_confirm hg.1).1
  rw [budget_externalize hw]
  exact hs

/-! ## Code that stays within the budget -/

/-- The fault is another one than running out of transitions. -/
def NotTooDeep (e : Fault) (_ : Slot) : Prop :=
  e ≠ .maxTransitions

/-- Processing the node's own statement leaves a budget of at most `k`, if no more was left when it
was recorded and there is room for `k` more levels. -/
def SelfBounded (node : Node) (V : Value → Prop) (k : ℕ) (self : SelfProcess) : Prop :=
  ∀ (s t : Slot) (ch : Change) (env : SCPEnvelope), Emitting node V False True s t ch env →
    (∀ w, node.Published s w ch env → node.budget w ≤ k) →
    t.mCurrentMessageLevel + k + 1 < MAX_ADVANCE_SLOT_RECURSION →
    wp (self env) (fun r s' => r = .VALID → node.budget s' ≤ k) NotTooDeep t

theorem sendLatestEnvelope_keeps {E : Fault → Slot → Prop} :
    wp sendLatestEnvelope (fun _ s' => s'.ballots = s.ballots ∧
      s'.mLatestEnvelopes = s.mLatestEnvelopes) E s := by
  unfold sendLatestEnvelope record
  simp only [wp_bind, wp_get]
  split
  · exact ⟨rfl, rfl⟩
  · refine (wp_ite _ _).mpr ⟨fun _ => ?_, fun _ => ⟨rfl, rfl⟩⟩
    simp only [wp_bind, wp_set, wp_modify]
    exact ⟨rfl, rfl⟩

/-- Emitting reaches a property of the ballots and the statements if processing the statement
does. -/
theorem emitCurrentStateStatement_rule {Q : Slot → Prop} {ch : Change}
    (hin : inner → 1 ≤ s.mCurrentMessageLevel) (hrest : Rest node V F s)
    (hg : Guard node V F s ch) (hch : Changed s t ch)
    (hQ : ∀ x y : Slot, y.ballots = x.ballots → y.mLatestEnvelopes = x.mLatestEnvelopes → Q x → Q y)
    (hsame : ∀ w env, node.Published s w ch env → Q w)
    (hself : ∀ t' env, Emitting node V F inner s t' ch env →
      wp (self env) (fun r s' => r = .VALID → Q s') NotTooDeep t') :
    wp (node.emitCurrentStateStatement self) (fun _ s' => Q s') NotTooDeep t := by
  unfold Node.emitCurrentStateStatement
  simp only [wp_bind, wp_get]
  refine createStatement_spec (fun hok pledges hpl => ?_) (fun _ => by simp [NotTooDeep])
    fun _ _ => by simp [NotTooDeep]
  simp only [record, wp_modify, wp_ite, wp_pure]
  refine ⟨fun hrec => ?_, fun hnew => ?_⟩
  · rw [hch.envelopes] at hrec
    exact hsame _ _ (hch.published hok hpl hrec)
  · rw [hch.envelopes] at hnew
    simp only [wp_bind]
    refine wp_mono (hself _ _ (hch.emitting hin hrest hg hok hpl hnew)) (fun r s' hr => ?_)
      fun _ _ h => h
    cases r with
    | INVALID => simp [NotTooDeep]
    | VALID =>
      simp only [if_true, wp_bind, wp_get, wp_ite, wp_set, wp_pure]
      refine ⟨fun _ => ?_, fun _ => hr rfl⟩
      exact wp_mono sendLatestEnvelope_keeps (fun _ s'' h => hQ s' s'' h.1 h.2 (hr rfl))
        fun _ _ h => h

/-- The slot has gone on without a fault, and a budget of at most `k` is left. -/
structure Node.Advances (node : Node) (V : Value → Prop) (k : ℕ) (s s' : Slot) : Prop where
  path : Path node V False (fun _ => True) True s s'
  level : s'.mCurrentMessageLevel = s.mCurrentMessageLevel
  budget : node.budget s' ≤ k

theorem Node.Advances.trans {k l : ℕ} (h₁ : node.Advances V k s t) (h₂ : node.Advances V l t u) :
    node.Advances V l s u :=
  ⟨h₁.path.trans h₂.path, h₂.level.trans h₁.level, h₂.budget⟩

theorem Node.Advances.mono {k l : ℕ} (h : node.Advances V k s t) (hkl : k ≤ l) :
    node.Advances V l s t :=
  ⟨h.path, h.level, h.budget.trans hkl⟩

/-- Inside `advanceSlot`, with room for `k` more levels. -/
structure Node.Ready (node : Node) (V : Value → Prop) (k : ℕ) (s : Slot) : Prop where
  inside : 1 ≤ s.mCurrentMessageLevel
  room : s.mCurrentMessageLevel + k + 1 < MAX_ADVANCE_SLOT_RECURSION
  rest : Rest node V False s

theorem Node.Ready.of_path {k : ℕ} (h : node.Ready V k s)
    (hpath : Path node V False (fun _ => True) inner s t)
    (hlevel : t.mCurrentMessageLevel = s.mCurrentMessageLevel) : node.Ready V k t :=
  ⟨hlevel ▸ h.inside, hlevel ▸ h.room, hpath.rest h.rest⟩

theorem Node.Ready.advances {k l : ℕ} (h : node.Ready V k s) (ha : node.Advances V l s t) :
    node.Ready V k t :=
  h.of_path ha.path ha.level

section Bounded

variable {k : ℕ} (hself : SelfSpec node V False (fun _ => True) self)
  (hb : SelfBounded node V k self) (hr : node.Ready V k s)
include hself hb hr

theorem emit_bounded {ch : Change} (hbump : ∀ newb, ch ≠ .bump newb)
    (hg : Guard node V False s ch) (hch : Changed s t ch)
    (hk : ∀ w env, node.Published s w ch env → node.budget w ≤ k) :
    wp (node.emitCurrentStateStatement self) (fun _ s' => node.Advances V k s s') NotTooDeep t := by
  have hbudget := emitCurrentStateStatement_rule (Q := fun s' => node.budget s' ≤ k)
    (fun _ : True => hr.inside) hr.rest hg hch (fun x y hb' he h => (budget_congr hb' he).trans_le h)
    hk fun t' env hemit => hb s t' ch env hemit (fun w hpub => hk w env hpub)
      (hemit.level.symm ▸ hr.room)
  refine wp_mono (wp_and (emit_inside hself hr.inside hr.rest hbump hg hch) hbudget)
    (fun _ s' h => ⟨h.1.2.1, h.1.2.2, h.2⟩) fun _ _ h => h.2

theorem attemptPreparedAccept_bounded {hint : SCPStatement}
    (hk : ∀ β ∈ getPrepareCandidates s.mLatestEnvelopes hint, node.Acceptable s β →
      (∀ γ ∈ getPrepareCandidates s.mLatestEnvelopes hint, β < γ → ¬ node.Acceptable s γ) →
      Guard node V False s (.acceptPrepared β) →
      ∀ w env, node.Published s w (.acceptPrepared β) env → node.budget w ≤ k) :
    wp (node.attemptPreparedAccept self hint) (fun _ s' => s' = s ∨ node.Advances V k s s')
      NotTooDeep s := by
  unfold Node.attemptPreparedAccept
  simp only [wp_bind, wp_get]
  refine (wp_ite _ _).mpr ⟨fun _ => Or.inl rfl, fun hphase => ?_⟩
  refine acceptLoop_rule (candidatesDesc_pairwise _ _) (fun _ => Or.inl rfl)
    (fun β hβ hacc hfirst => ?_) (by simp [NotTooDeep]) (by simp [NotTooDeep])
  have hmem := mem_candidatesDesc.mp hβ
  refine setPreparedAccept_rule hphase ⟨hint, hmem⟩ hacc
    (fun t (hg : Guard node V False s _) hch => ?_) fun _ _ _ _ => by simp [NotTooDeep]
  refine wp_mono (emit_bounded hself hb hr (fun _ h => by cases h) hg hch
    (hk β hmem hacc (fun γ hγ => hfirst γ (mem_candidatesDesc.mpr hγ)) hg)) (fun _ _ h => Or.inr h)
    fun _ _ h => h

theorem attemptPreparedConfirmed_bounded {hint : SCPStatement} {l : ℕ} (hkl : k ≤ l)
    (hl : node.budget s ≤ l)
    (hk : ∀ s₁ newC newH, Path node V False (fun _ => True) True s s₁ →
      s₁.toBallotProtocol = s.toBallotProtocol →
      Guard node V False s₁ (.confirmPrepared newC newH) →
      node.IsNewH s₁.toBallotProtocol hint newH →
      ∀ w env, node.Published s₁ w (.confirmPrepared newC newH) env → node.budget w ≤ k) :
    wp (node.attemptPreparedConfirmed self hint) (fun _ s' => node.Advances V l s s')
      NotTooDeep s := by
  obtain ⟨s₁, hs₁⟩ : ∃ s₁, s₁ = s.logging (.attemptPreparedConfirmed s.toBallotProtocol hint) :=
    ⟨_, rfl⟩
  have hstep : Step node V False (fun _ => True) True s s₁ := hs₁ ▸ .probe hint
  have hpath := Path.single hstep
  have hbp : s₁.toBallotProtocol = s.toBallotProtocol := by
    rw [hs₁]
    rfl
  refine attemptPreparedConfirmed_rule (fun h => h.elim) ?_
    fun newC newH (hg : Guard node V False _ _) _ hnew => setPreparedConfirmed_rule hg
      fun t hch => ?_
  · rw [← hs₁]
    exact ⟨hpath, by rw [hbp], (budget_congr (by rw [hbp]) (by rw [hbp])).trans_le hl⟩
  · rw [← hs₁] at hg hch
    refine wp_mono (emit_bounded hself hb (hr.of_path hpath (by rw [hbp]))
      (fun _ h => by cases h) hg hch (hk s₁ newC newH hpath hbp hg (by rwa [hbp])))
      (fun _ s' h => ?_) fun _ _ h => h
    exact ⟨hpath.trans h.path, h.level.trans (by rw [hbp]), h.budget.trans hkl⟩

theorem attemptAcceptCommit_bounded {hint : SCPStatement} {l : ℕ} (hkl : k ≤ l)
    (hl : node.budget s ≤ l)
    (hk : ∀ ballot i, i = node.acceptedInterval s.mLatestEnvelopes ballot → i.1 ≠ 0 →
      Guard node V False s (.acceptCommit ⟨i.1, ballot.value⟩ ⟨i.2, ballot.value⟩) →
      ∀ w env, node.Published s w (.acceptCommit ⟨i.1, ballot.value⟩ ⟨i.2, ballot.value⟩) env →
        node.budget w ≤ k) :
    wp (node.attemptAcceptCommit self hint) (fun _ s' => node.Advances V l s s') NotTooDeep s := by
  refine attemptAcceptCommit_rule ⟨Path.refl s, rfl, hl⟩ (by simp [NotTooDeep])
    fun ballot i hphase _ hi hne hraise => ?_
  have hg : Guard node V False s _ := guard_acceptCommit hphase hi hne hraise fun h => h.elim
  exact setAcceptCommit_rule hg fun t hch =>
    wp_mono (emit_bounded hself hb hr (fun _ h => by cases h) hg hch
      (hk ballot i hi hne hg)) (fun _ _ h => h.mono hkl) fun _ _ h => h

theorem attemptConfirmCommit_bounded {hint : SCPStatement} {l : ℕ} (hkl : k ≤ l)
    (hl : node.budget s ≤ l)
    (hk : ∀ c h, Guard node V False s (.confirmCommit c h) →
      ∀ w env, node.Published s w (.confirmCommit c h) env → node.budget w ≤ k) :
    wp (node.attemptConfirmCommit self hint) (fun _ s' => node.Advances V l s s')
      NotTooDeep s := by
  have hbudget : wp (node.attemptConfirmCommit self hint) (fun _ s' => node.budget s' ≤ l)
      NotTooDeep s := by
    refine attemptConfirmCommit_rule hl fun c h (hg : Guard node V False s _) =>
      setConfirmCommit_rule hg fun t hch => ?_
    refine wp_mono (emit_bounded hself hb hr (fun _ h => by cases h) hg hch
      (hk c h hg)) (fun _ s' h => ⟨fun commit _ => ?_, fun _ => by simp [NotTooDeep]⟩)
      fun _ _ h => h
    have hsame : node.budget ((s'.logging .stopNomination).logging
        (.valueExternalized commit.value)) = node.budget s' := budget_congr rfl rfl
    exact hsame.trans_le (h.budget.trans hkl)
  refine wp_mono (wp_and (attemptConfirmCommit_spec hself hr.inside hr.rest) hbudget)
    (fun _ s' h => ⟨h.1.1, h.1.2, h.2⟩) fun _ _ h => h.2

/-- The attempts, when every change that they can make is within `k`. -/
theorem attemptAll_bounded {pledges : Pledges} (hs : node.Stated s pledges) (hok : s.ballots.Ok)
    (hbudget : node.budget s ≤ k + 1) :
    wp (node.attemptAll self (node.createEnvelope pledges).statement)
      (fun _ s' => node.Advances V (k + 1) s s') NotTooDeep s := by
  unfold Node.attemptAll
  simp only [wp_bind, wp_pure]
  refine wp_mono
    (attemptPreparedAccept_bounded hself hb hr fun β hβ hacc hfirst hg w env hpub => ?_)
    (fun _ s₁ h₁ => ?_) fun _ _ h => h
  · have := budget_lt_of_accept hr.rest hs hg hβ hacc hfirst hpub
    omega
  have ha₁ : node.Advances V (k + 1) s s₁ := by
    rcases h₁ with rfl | h₁
    · exact ⟨Path.refl _, rfl, hbudget⟩
    · exact h₁.mono (Nat.le_succ k)
  obtain ⟨pledges₁, hs₁⟩ := ha₁.path.stated hs
  refine wp_mono (attemptPreparedConfirmed_bounded hself hb (hr.advances ha₁) (Nat.le_succ k)
    ha₁.budget fun s₁' newC newH hpath hbp hg hnew w env hpub => ?_) (fun _ s₂ ha₂ => ?_)
    fun _ _ h => h
  · have hs₁' : node.Stated s₁' pledges₁ := by
      refine ⟨?_, ?_⟩
      · rw [hbp]
        exact hs₁.of_ballots
      · rw [hbp]
        exact hs₁.recorded
    have hsame : node.budget s₁' = node.budget s₁ := budget_congr (by rw [hbp]) (by rw [hbp])
    obtain ⟨hle, hlt⟩ := budget_le_of_confirm hs₁' hg hpub hr.rest hok (ha₁.path.trans hpath) hs
      hnew
    rcases h₁ with rfl | h₁
    · -- the hint is still the node's statement
      have := hlt (Option.some.inj (hs₁.of_ballots.symm.trans hs.of_ballots))
      have := ha₁.budget
      omega
    · have := h₁.budget
      omega
  have ha₂ := ha₁.trans ha₂
  obtain ⟨pledges₂, hs₂⟩ := ha₂.path.stated hs
  refine wp_mono (attemptAcceptCommit_bounded hself hb (hr.advances ha₂) (Nat.le_succ k)
    ha₂.budget fun ballot i hi hne hg w env hpub => ?_) (fun _ s₃ ha₃ => ?_) fun _ _ h => h
  · have hok₂ : s₂.ballots.Ok := ha₂.path.invariant (P := fun t => t.ballots.Ok)
      (fun _ _ => Step.ok) hok
    have := budget_lt_of_acceptCommit hs₂ hok₂ hi hne hg hpub
    have := ha₂.budget
    omega
  have ha₃ := ha₂.trans ha₃
  refine wp_mono (attemptConfirmCommit_bounded hself hb (hr.advances ha₃) (Nat.le_succ k)
    ha₃.budget fun c h hg w env hpub => ?_) (fun _ s₄ ha₄ => ha₃.trans ha₄) fun _ _ h => h
  have := budget_lt_of_confirmCommit hg hpub
  have := ha₃.budget
  omega

/-- Whatever the hint is, a budget of eight is enough. -/
theorem attemptAll_any {hint : SCPStatement} (hk : 8 ≤ k) :
    wp (node.attemptAll self hint) (fun _ s' => node.Advances V k s s') NotTooDeep s := by
  have hle (u : Slot) : node.budget u ≤ k := (budget_le node u).trans hk
  unfold Node.attemptAll
  simp only [wp_bind, wp_pure]
  refine wp_mono (attemptPreparedAccept_bounded hself hb hr fun _ _ _ _ _ w _ _ => hle w)
    (fun _ s₁ h₁ => ?_) fun _ _ h => h
  have ha₁ : node.Advances V k s s₁ := by
    rcases h₁ with rfl | h₁
    · exact ⟨Path.refl _, rfl, hle _⟩
    · exact h₁
  refine wp_mono (attemptPreparedConfirmed_bounded hself hb (hr.advances ha₁) le_rfl ha₁.budget
    fun _ _ _ _ _ _ _ w _ _ => hle w) (fun _ s₂ ha₂ => ?_) fun _ _ h => h
  have ha₂ := ha₁.trans ha₂
  refine wp_mono (attemptAcceptCommit_bounded hself hb (hr.advances ha₂) le_rfl ha₂.budget
    fun _ _ _ _ _ w _ _ => hle w) (fun _ s₃ ha₃ => ?_) fun _ _ h => h
  have ha₃ := ha₂.trans ha₃
  exact wp_mono (attemptConfirmCommit_bounded hself hb (hr.advances ha₃) le_rfl ha₃.budget
    fun _ _ _ w _ _ => hle w) (fun _ s₄ ha₄ => ha₃.trans ha₄) fun _ _ h => h

end Bounded

/-! ## Advancing -/

/-- `advanceSlot` around the attempts: one level down and up again, and an envelope to send. -/
theorem advanceSlot_rule {Q : Slot → Prop} {hint : SCPStatement}
    (hroom : s.mCurrentMessageLevel + 1 < MAX_ADVANCE_SLOT_RECURSION)
    (hQ : ∀ x y : Slot, y.ballots = x.ballots → y.mLatestEnvelopes = x.mLatestEnvelopes → Q x → Q y)
    (hall : ∀ u, Path node V F R True s u → u.ballots = s.ballots →
      u.mLatestEnvelopes = s.mLatestEnvelopes →
      u.mCurrentMessageLevel = s.mCurrentMessageLevel + 1 →
      wp (node.attemptAll self hint >>= node.bumpIfOutermost self) (fun _ x => Q x) NotTooDeep u) :
    wp (node.advanceSlot self hint) (fun _ x => Q x) NotTooDeep s := by
  unfold Node.advanceSlot
  rw [wp_bind, wp_modify, wp_bind, wp_get, wp_bind, wp_require]
  obtain ⟨s₁, hs₁⟩ : ∃ s₁, s₁ = { s with mCurrentMessageLevel := s.mCurrentMessageLevel + 1 } :=
    ⟨_, rfl⟩
  rw [← hs₁]
  have hq₁ : QuietStep V s s₁ := by
    rw [hs₁]
    exact ⟨rfl, rfl, rfl, rfl, Or.inl rfl, QuietLog.of_log_eq rfl⟩
  have hl₁ : s₁.mCurrentMessageLevel = s.mCurrentMessageLevel + 1 := by rw [hs₁]
  refine ⟨fun _ => ?_, fun h => absurd hroom (by rw [← hl₁]; simpa using h)⟩
  rw [wp_bind]
  refine wp_mono (checkHeardFromQuorum_spec node V) (fun _ u hu => ?_) fun _ _ h => h
  obtain ⟨hq₂, hl₂⟩ := hu
  have hpath : Path node V F R True s u :=
    (Path.single (.quiet hq₁)).trans (Path.single (.quiet hq₂))
  have hwp := hall u hpath (hq₂.ballots.trans hq₁.ballots) (hq₂.envelopes.trans hq₁.envelopes)
    (hl₂.trans hl₁)
  rw [wp_bind] at hwp ⊢
  refine wp_mono hwp (fun attempted v hv => ?_) fun _ _ h => h
  rw [wp_bind]
  refine wp_mono hv (fun didWork x hx => ?_) fun _ _ h => h
  rw [wp_bind, wp_modify, wp_ite]
  refine ⟨fun _ => ?_, fun _ => hQ x _ rfl rfl hx⟩
  exact wp_mono sendLatestEnvelope_keeps (fun _ y hy => hQ x y hy.1 hy.2 hx) fun _ _ h => h

/-- **The recursion stays within the budget**, at every depth that is above it. -/
theorem processEnvelope_selfBounded (node : Node) (V : Value → Prop) (k : ℕ) {depth : ℕ}
    (hdepth : k < depth) :
    SelfBounded node V k fun env => node.processEnvelope depth env true := by
  induction k generalizing depth with
  | zero =>
    obtain ⟨depth, rfl⟩ := Nat.exists_eq_succ_of_ne_zero hdepth.ne'
    intro s t ch env hemit hbudget hroom
    refine processOwn_rule hemit (fun _ _ _ _ h => by cases h) (fun w hpub hphase _ => ?_)
      (fun w hpub _ _ _ => hbudget w hpub) (fun _ _ _ => by simp [NotTooDeep])
    -- nothing is left only when the slot is done
    have hzero := hbudget w hpub
    cases hph : w.mPhase with
    | PREPARE =>
      have : 5 ≤ node.budget w := budget_prepare hph
      omega
    | CONFIRM =>
      have : 1 ≤ node.budget w := (budget_confirm hph).1
      omega
    | EXTERNALIZE => exact absurd hph hphase
  | succ k ih =>
    obtain ⟨depth, rfl⟩ := Nat.exists_eq_succ_of_ne_zero (Nat.zero_lt_of_lt hdepth).ne'
    intro s t ch env hemit hbudget hroom
    refine processOwn_rule hemit (fun _ _ _ _ h => by cases h) (fun w hpub hphase hl => ?_)
      (fun w hpub _ _ _ => hbudget w hpub) (fun _ _ _ => by simp [NotTooDeep])
    have hself := processEnvelope_selfSpec node V False (fun _ => True) depth
    have hb : SelfBounded node V k _ := ih (Nat.lt_of_succ_lt_succ hdepth)
    have hstep : Step node V False (fun _ => True) False s w :=
      .publish ch env (fun hi => hi.elim) hemit.guard hpub
    obtain ⟨pledges, hs, rfl⟩ := hpub.stated
    refine wp_mono (advanceSlot_rule (Q := fun x => node.budget x ≤ k + 1) (R := fun _ => True)
      (by omega) (fun x y hb' he h => (budget_congr hb' he).trans_le h)
      fun u (hpath : Path node V False _ True w u) hub hue hul => ?_) (fun _ x hx _ => hx)
      fun _ _ h => h
    have hr : node.Ready V k u :=
      { inside := by omega
        room := by omega
        rest := hpath.rest (hstep.rest hemit.rest) }
    have hsu : node.Stated u pledges := ⟨hub ▸ hs.of_ballots, hue ▸ hs.recorded⟩
    rw [wp_bind]
    refine wp_mono (attemptAll_bounded hself hb hr hsu (hub ▸ hpub.ok)
      ((budget_congr hub hue).trans_le (hbudget w hpub))) (fun r x hx => ?_) fun _ _ h => h
    -- the bump is left to the outermost call
    have hne : x.mCurrentMessageLevel ≠ 1 := by
      have := hemit.inside trivial
      rw [hx.level]
      omega
    unfold Node.bumpIfOutermost
    rw [wp_bind, wp_get, if_neg hne]
    exact hx.budget

/-! ## The outermost call -/

section Bumps

variable (hemit : ∀ newb t, Guard node V False s (.bump newb) → Changed s t (.bump newb) →
    wp (node.emitCurrentStateStatement self) (fun _ _ => True) NotTooDeep t)
include hemit

theorem bumpStateTo_notTooDeep {value : Value} {n : Uint32}
    (hvalue : V value ∨ ∃ b, s.mCurrentBallot = some b ∧ value = b.value)
    (hcounter : n = 0 → ∃ b, s.mCurrentBallot = some b ∧ b.counter ≠ 0) :
    wp (node.bumpStateTo self value n) (fun _ _ => True) NotTooDeep s :=
  bumpStateTo_rule (R := fun _ => True) hvalue hcounter trivial
    (fun newb t _ hg hch => hemit newb t hg hch) fun _ _ _ h => h

theorem bumpState_notTooDeep {value : Value} {force : Bool}
    (hvalue : V value ∨ ∃ b, s.mCurrentBallot = some b ∧ value = b.value) :
    wp (node.bumpState self value force) (fun _ _ => True) NotTooDeep s := by
  unfold Node.bumpState
  simp only [wp_bind, wp_get]
  refine (wp_ite _ _).mpr ⟨fun _ => trivial, fun _ => ?_⟩
  refine bumpStateTo_notTooDeep hemit hvalue fun h0 => ?_
  cases hb : s.mCurrentBallot with
  | none => simp [hb] at h0
  | some b => exact ⟨b, rfl, fun hb0 => by simp [hb, hb0] at h0⟩

variable (hrest : Rest node V False s)
include hrest

theorem abandonBallot_notTooDeep {n : Uint32} :
    wp (node.abandonBallot self n) (fun _ _ => True) NotTooDeep s := by
  unfold Node.abandonBallot
  simp only [wp_bind, wp_get]
  refine (wp_ite _ _).mpr ⟨fun _ => trivial, fun hv => ?_⟩
  refine (wp_ite _ _).mpr ⟨fun _ => ?_, fun hn => ?_⟩
  · exact bumpState_notTooDeep hemit (hrest.abandonValue hv)
  · exact bumpStateTo_notTooDeep hemit (hrest.abandonValue hv) fun h => absurd h hn

theorem attemptBump_notTooDeep :
    wp (node.attemptBump self) (fun _ _ => True) NotTooDeep s := by
  have hloop (target : Uint32) (l : List Uint32) :
      wp (node.bumpLoop self s.mLatestEnvelopes target l) (fun _ _ => True) NotTooDeep s := by
    induction l with
    | nil => exact trivial
    | cons n rest ih =>
      unfold Node.bumpLoop
      refine (wp_ite _ _).mpr ⟨fun _ => trivial, fun _ => ?_⟩
      refine (wp_ite _ _).mpr ⟨fun _ => ?_, fun _ => ?_⟩
      · exact (wp_ite _ _).mpr ⟨fun _ => trivial, fun _ => ih⟩
      · exact (wp_ite _ _).mpr ⟨fun _ => abandonBallot_notTooDeep hemit hrest, fun _ => ih⟩
  unfold Node.attemptBump
  simp only [wp_bind, wp_get]
  exact (wp_ite _ _).mpr ⟨fun _ => trivial, fun _ => hloop _ _⟩

end Bumps

section Outermost

variable {k : ℕ} (hself : SelfSpec node V False (fun _ => True) self)
  (hb : SelfBounded node V k self) (hk : 8 ≤ k)
include hb hk

/-- A bump inside `advanceSlot` leaves at most the whole budget. -/
theorem emitBump_notTooDeep {newb : SCPBallot} (hr : node.Ready V k s)
    (hg : Guard node V False s (.bump newb)) (hch : Changed s t (.bump newb)) :
    wp (node.emitCurrentStateStatement self) (fun _ _ => True) NotTooDeep t :=
  emitCurrentStateStatement_rule (Q := fun _ => True) (fun _ : True => hr.inside) hr.rest hg hch
    (fun _ _ _ _ _ => trivial) (fun _ _ _ => trivial) fun t' env hemit =>
      wp_mono (hb s t' _ env hemit (fun w _ => (budget_le node w).trans hk)
        (hemit.level.symm ▸ hr.room)) (fun _ _ _ _ => trivial) fun _ _ h => h

include hself

theorem bumpWhile_notTooDeep {didWork : Bool} {r : EStateM.Result Fault Slot Bool}
    (h : node.BumpWhile self didWork s r) (hr : node.Ready V k s) :
    ∀ e t, r = .error e t → e ≠ .maxTransitions := by
  induction h with
  | stop _ =>
    intro e t heq
    cases heq
  | again hrun _ ih =>
    refine ih ?_
    have hspec := attemptBump_spec hself hr.rest
    rw [wp, hrun] at hspec
    exact hr.of_path hspec.1 hspec.2
  | fault hrun =>
    rintro e t ⟨⟩
    have hwp := attemptBump_notTooDeep (fun newb t hg hch => emitBump_notTooDeep hb hk hr hg hch)
      hr.rest
    rw [wp, hrun] at hwp
    exact hwp

theorem bumpIfOutermost_notTooDeep {didWork : Bool} (hr : node.Ready V k s)
    (hrec : s.mLatestEnvelopes.size ≠ 0) :
    wp (node.bumpIfOutermost self didWork) (fun _ _ => True) NotTooDeep s := by
  unfold Node.bumpIfOutermost
  simp only [wp_bind, wp_get]
  refine (wp_ite _ _).mpr ⟨fun _ => ?_, fun _ => trivial⟩
  obtain ⟨n, hn⟩ := Nat.exists_eq_succ_of_ne_zero hrec
  rw [hn]
  have hwhile := bumpWhile_bumpRounds hself hr.rest hr.inside n didWork
  have hnot := bumpWhile_notTooDeep hself hb hk hwhile hr
  unfold wp
  cases hrun : node.bumpRounds self (n + 3) didWork s with
  | ok r t => trivial
  | error e t => exact hnot e t hrun

end Outermost

/-- Statements are never forgotten. -/
theorem Path.recorded (h : Path node V F R True s t) (hs : s.mLatestEnvelopes.size ≠ 0) :
    t.mLatestEnvelopes.size ≠ 0 := by
  refine h.invariant (P := fun t => t.mLatestEnvelopes.size ≠ 0) (fun t u hst ht => ?_) hs
  cases hst with
  | quiet hq => rwa [hq.envelopes]
  | probe hint => exact ht
  | publish ch env hbump hg hp =>
    rw [hp.envelopes, Std.ExtTreeMap.size_insert]
    split_ifs <;> omega
  | remember env hn => exact ht
  | send env hlast hemit => exact ht
  | externalize v hphase hcommit hnone => exact ht
  | receive env hin hr => exact absurd trivial hin

/-- The outermost `advanceSlot`, with any hint. -/
theorem advanceSlot_notTooDeep {hint : SCPStatement} {depth : ℕ} (hdepth : 8 < depth)
    (hlevel : s.mCurrentMessageLevel = 0) (hrest : Rest node V False s)
    (hrec : s.mLatestEnvelopes.size ≠ 0) :
    wp (node.advanceSlot (fun env => node.processEnvelope depth env true) hint)
      (fun _ _ => True) NotTooDeep s := by
  have hself := processEnvelope_selfSpec node V False (fun _ => True) depth
  have hb : SelfBounded node V 8 _ := processEnvelope_selfBounded node V 8 hdepth
  refine advanceSlot_rule (Q := fun _ => True) (R := fun _ => True)
    (by rw [hlevel, MAX_ADVANCE_SLOT_RECURSION]; omega) (fun _ _ _ _ _ => trivial)
    fun u (hpath : Path node V False _ True s u) _ _ hl => ?_
  have hr : node.Ready V 8 u :=
    { inside := by omega
      room := by rw [hl, hlevel, MAX_ADVANCE_SLOT_RECURSION]; omega
      rest := hpath.rest hrest }
  rw [wp_bind]
  refine wp_mono (attemptAll_any hself hb hr le_rfl) (fun r x hx => ?_) fun _ _ h => h
  exact bumpIfOutermost_notTooDeep hself hb le_rfl (hr.advances hx)
    ((hpath.trans hx.path).recorded hrec)

theorem size_ne_zero_of_recorded {envs : EnvelopeMap} {n : NodeID} {env : SCPEnvelope}
    (h : envs[n]? = some env) : envs.size ≠ 0 := by
  intro h0
  rw [Std.ExtTreeMap.eq_empty_iff_size_eq_zero.mpr h0] at h
  simp at h

/-- A bump from outside. -/
theorem emitOuter_notTooDeep {newb : SCPBallot} (hlevel : s.mCurrentMessageLevel = 0)
    (hrest : Rest node V False s) (hg : Guard node V False s (.bump newb))
    (hch : Changed s t (.bump newb)) :
    wp (node.emitCurrentStateStatement node.processSelf) (fun _ _ => True) NotTooDeep t := by
  refine emitCurrentStateStatement_rule (Q := fun _ => True) (fun h : False => h.elim) hrest hg hch
    (fun _ _ _ _ _ => trivial) (fun _ _ _ => trivial) fun t' env hemit => ?_
  refine processOwn_rule hemit (fun _ _ _ _ _ => trivial) (fun w hpub _ hl => ?_)
    (fun _ _ _ _ _ => trivial) (fun _ _ _ => by simp [NotTooDeep])
  have hstep : Step node V False (fun _ => True) False s w :=
    .publish _ env (fun hi => hi.elim) hg hpub
  refine wp_mono (advanceSlot_notTooDeep (by omega) (hl.trans (hemit.level.trans hlevel))
    (hstep.rest hrest) ?_) (fun _ _ _ _ => trivial) fun _ _ h => h
  rw [hpub.envelopes]
  exact size_ne_zero_of_recorded getElem?_insert_self

/-! ## Runs -/

theorem step_notTooDeep {i : Input} (hlevel : s.mCurrentMessageLevel = 0)
    (hrest : Rest node (fun _ => True) False s) :
    wp (node.step i) (fun _ _ => True) NotTooDeep s := by
  have hemit (newb : SCPBallot) (t : Slot) (hg : Guard node (fun _ => True) False s (.bump newb))
      (hch : Changed s t (.bump newb)) :
      wp (node.emitCurrentStateStatement node.processSelf) (fun _ _ => True) NotTooDeep t :=
    emitOuter_notTooDeep hlevel hrest hg hch
  cases i with
  | envelope env =>
    simp only [Node.step, wp_bind, wp_pure]
    have hin : InputOk node (fun _ => True) False (fun _ => True) s (.envelope env) :=
      ⟨trivial, fun h => h.elim⟩
    refine receive_rule hin (fun _ _ _ => trivial) (fun w hstep hl hrec => ?_)
      (fun _ _ _ => trivial) (by simp [NotTooDeep]) (by simp [NotTooDeep])
      (fun _ _ _ => by simp [NotTooDeep])
    exact advanceSlot_notTooDeep (by omega) (hl.trans hlevel) (hstep.rest hrest)
      (size_ne_zero_of_recorded hrec)
  | bumpState value force =>
    simp only [Node.step, wp_bind, wp_pure]
    exact bumpState_notTooDeep hemit (Or.inl trivial)
  | updatedCandidateValue value =>
    simp only [Node.step, wp_bind, wp_modify, wp_pure]
    have hstep : Step node (fun _ => True) False (fun _ => True) False s
        { s with mLatestCompositeCandidate := value } :=
      .quiet ⟨rfl, rfl, rfl, rfl, Or.inr trivial, QuietLog.of_log_eq rfl⟩
    exact bumpState_notTooDeep (V := fun _ => True)
      (fun newb t hg hch => emitOuter_notTooDeep (V := fun _ => True)
        (s := { s with mLatestCompositeCandidate := value }) hlevel (hstep.rest hrest)
        hg hch) (Or.inl trivial)
  | timerExpired =>
    simp only [Node.step, Node.ballotProtocolTimerExpired, startBallotProtocolTimer, record,
      wp_bind,
      wp_get]
    refine (wp_ite _ _).mpr ⟨fun _ => ?_, fun _ => ?_⟩
    · simp only [wp_bind, wp_pure]
      exact abandonBallot_notTooDeep hemit hrest
    · simp only [wp_bind, wp_get, wp_deref, wp_modify]
      exact ⟨fun _ _ => trivial, fun _ => by simp [NotTooDeep]⟩
  | abandonBallot =>
    simp only [Node.step, wp_bind, wp_pure]
    exact abandonBallot_notTooDeep hemit hrest

/-- From a slot at rest no sequence of inputs runs out of transitions. -/
theorem runInputs_notTooDeep (hlevel : s.mCurrentMessageLevel = 0)
    (hrest : Rest node (fun _ => True) False s) (inputs : List Input) :
    wp (runInputs node.step inputs) (fun _ _ => True) NotTooDeep s := by
  refine wp_mono (Q := fun _ t => Rest node (fun _ => True) False t ∧ t.mCurrentMessageLevel = 0)
    (wp_runInputs ⟨hrest, hlevel⟩ fun _ i _ t _ _ ht => ?_) (fun _ _ _ => trivial) fun _ _ h => h
  have hspec := step_spec (R := fun _ => True) ht.1 (i := i) (by cases i <;> simp [InputOk])
  refine wp_mono (wp_and hspec (step_notTooDeep ht.2 ht.1)) (fun _ u h => ?_) fun _ _ h => h.2
  exact ⟨h.1.1.rest ht.1, h.1.2.trans ht.2⟩

/-! ## Restarts -/

/-- One life of the process: the slot starts from the envelope in the database, if there is one. -/
def Node.life (node : Node) (saved : Option SCPEnvelope) (inputs : List Input) :
    EStateM.Result Fault Slot Unit :=
  match saved with
  | none => node.run inputs
  | some e => node.restart e inputs (freshSlot node)

/-- The slot at the end of a life. -/
def lastSlot : EStateM.Result Fault Slot Unit → Slot
  | .ok _ s => s
  | .error _ s => s

/-- The envelope in the database after a number of lives, the first one first. -/
def Node.savedAfter (node : Node) (lives : List (List Input)) : Option SCPEnvelope :=
  lives.foldl (fun saved inputs => (savedEnvelope (lastSlot (node.life saved inputs)).log).or saved)
    none

/-- An envelope that the node may have sent: a slot that is set from it is at rest. -/
def Node.Saveable (node : Node) (e : SCPEnvelope) : Prop :=
  ∃ pledges, e = node.createEnvelope pledges ∧ pledges.restored.PrimeBelow ∧
    pledgesSane pledges true = true

/-- What was made, remembered or sent may be saved. -/
structure Saving (node : Node) (s : Slot) : Prop where
  emissions : ∀ bp env, Event.emitCurrentStateStatement bp env ∈ s.log → node.Saveable env
  last : ∀ env, s.mLastEnvelope = some env → node.Saveable env
  sent : ∀ env ∈ emitted s.log, node.Saveable env

theorem Step.saving (hst : Step node V F R inner s t) (hr : Rest node V F s) (h : Saving node s) :
    Saving node t := by
  refine ⟨fun bp env hmem => ?_, fun env he => ?_, fun env he => ?_⟩
  · rcases hst.emission hmem with hold | ⟨ch, hg, hp, -⟩
    · exact h.emissions bp env hold
    obtain ⟨pledges, hpl, rfl⟩ := hp.statement
    refine ⟨pledges, rfl, Ballots.PrimeBelow.restored ?_ hpl, ?_⟩
    · rw [hp.ballots]
      exact hg.primeBelow hr.prime
    · rcases hp.processable with hrec | ⟨bp', n, -, -, -, -, hproc⟩
      · exact (hr.recorded _ _ hrec).2
      · exact isStatementSane_pledges hproc.sane
  · rcases hst.last he with hold | ⟨bp, hmem⟩
    · exact h.last env hold
    · exact h.emissions bp env hmem
  · rcases hst.sent he with hold | hlast
    · exact h.sent env hold
    · exact h.last env hlast

theorem saving_freshSlot : Saving node (freshSlot node) where
  emissions bp env h := by simp [freshSlot] at h
  last env h := by simp [freshSlot] at h
  sent env h := by simp [freshSlot, emitted] at h

/-- How a life begins. -/
theorem exists_start {saved : Option SCPEnvelope} (hsaved : ∀ e, saved = some e → node.Saveable e)
    (inputs : List Input) :
    ∃ t, node.life saved inputs = runInputs node.step inputs t ∧ t.mCurrentMessageLevel = 0 ∧
      Rest node (fun _ => True) False t ∧ Saving node t := by
  cases saved with
  | none => exact ⟨freshSlot node, rfl, rfl, rest_freshSlot, saving_freshSlot⟩
  | some e =>
    obtain ⟨pledges, rfl, hprime, hsane⟩ := hsaved e rfl
    obtain ⟨t, ht, hres⟩ := setStateFromEnvelope_fresh node pledges
    refine ⟨t, bind_of_ok ht, hres.level, hres.rest hprime hsane, ?_⟩
    obtain ⟨n, hn⟩ := hres.log
    refine ⟨fun bp env hmem => ?_, fun env he => ?_, fun env he => ?_⟩
    · simp [hn] at hmem
    · rw [hres.last] at he
      obtain rfl := Option.some.inj he
      exact ⟨pledges, rfl, hprime, hsane⟩
    · simp [hn, emitted] at he

/-- What a life saves is fit to start the next one from. -/
theorem life_saves {saved : Option SCPEnvelope} (hsaved : ∀ e, saved = some e → node.Saveable e)
    (inputs : List Input) :
    ∀ e ∈ emitted (lastSlot (node.life saved inputs)).log, node.Saveable e := by
  obtain ⟨t, heq, -, hrest, hsaving⟩ := exists_start hsaved inputs
  have hspec := runInputs_spec (R := fun _ => True) hrest inputs fun _ i _ _ _ _ _ => by
    cases i <;> simp [InputOk]
  have hpath (u : Slot) (h : Path node (fun _ => True) False (fun _ => True) False t u) :
      Saving node u :=
    (h.invariant (P := fun u => Rest node (fun _ => True) False u ∧ Saving node u)
      (fun _ _ hst hu => ⟨hst.rest hu.1, hst.saving hu.1 hu.2⟩) ⟨hrest, hsaving⟩).2
  rw [heq]
  unfold wp at hspec
  cases hrun : runInputs node.step inputs t with
  | ok _ u =>
    rw [hrun] at hspec
    exact (hpath u hspec).sent
  | error e v =>
    rw [hrun] at hspec
    obtain ⟨u, hu, hcrash⟩ := hspec
    intro env henv
    rw [lastSlot, hcrash.emitted_eq] at henv
    exact (hpath u hu).sent env henv

theorem savedAfter_saveable (node : Node) (lives : List (List Input)) :
    ∀ e, node.savedAfter lives = some e → node.Saveable e := by
  induction lives using List.reverseRecOn with
  | nil =>
    intro e he
    cases he
  | append_singleton lives inputs ih =>
    intro e he
    rw [Node.savedAfter, List.foldl_append, List.foldl_cons, List.foldl_nil, Option.or_eq_some_iff]
      at he
    rcases he with he | ⟨-, he⟩
    · exact life_saves ih inputs e (List.mem_of_getLast? he)
    · exact ih e he

/-- **The recursion is bounded.** In no life of a process, whatever the envelopes, the values and
the order of the inputs, and whatever was saved in the lives before, does `advanceSlot` reach its
maximum number of transitions. -/
theorem life_never_maxTransitions (node : Node) (lives : List (List Input)) (inputs : List Input)
    (s : Slot) : node.life (node.savedAfter lives) inputs ≠ .error .maxTransitions s := by
  intro h
  obtain ⟨t, heq, hlevel, hrest, -⟩ := exists_start (savedAfter_saveable node lives) inputs
  have hwp := runInputs_notTooDeep hlevel hrest inputs
  rw [wp, ← heq, h] at hwp
  exact hwp rfl

end SmartCore.SCP
