import SmartCore.SCP.Monotone

/-!
# The node's own statements

When a node emits a statement it processes it itself, and throws "moved to a bad state" if that
fails. Three things can make it fail.

* The order of statements ignores `c`. If `h` moves to another value at the same counter, and the
  new `h` is the current ballot, then `c` is all that changes in the statement, which is neither
  the recorded one nor newer (`confirmed_commit_not_newer` is such a run).
* `validateValues` does not look at `p'`, and an answer of "maybe" hides an earlier "invalid". A
  value the driver rejects can come in that way and end up in the node's own statement. So can a
  value that the driver rejects only later.
* The empty ballot of a node that has no current ballot yet can become its `h`.

Without them no statement of the node is ever bad. Main result: `selfStatement_of_safe`.
-/

namespace SmartCore.SCP

variable {node : Node} {V : Value → Prop} {F inner : Prop} {R : SCPEnvelope → Prop} {s t : Slot}
  {k : ℕ}

/-! ## The conditions -/

/-- The driver does not reject the value after `k` events, nor later. -/
def Node.Accepts (node : Node) (k : ℕ) (v : Value) : Prop :=
  ∀ n ≥ k, node.validateValue n v ≠ .kInvalidValue

theorem Node.Accepts.mono {k n : ℕ} {v : Value} (h : node.Accepts k v) (hle : k ≤ n) :
    node.Accepts n v := fun m hm => h m (hle.trans hm)

/-- A confirmed ballot changes more than `c` in the statement, and is not an empty ballot that
the driver rejects at some time. -/
def Node.ConfirmVisible (node : Node) (s : BallotProtocol) (hint : SCPStatement) : Prop :=
  s.mPhase = .PREPARE → s.mPrepared ≠ none → ∀ newH, node.IsNewH s hint newH →
    (∀ h, s.mHighBallot = some h → h.counter = newH.counter → s.mCurrentBallot = some newH →
      ¬ MayCommit s newH) ∧
    (newH = {} → node.Accepts 0 [])

/-- Every call of `attemptPreparedConfirmed` in the log is visible. -/
def Node.LogVisible (node : Node) (log : List Event) : Prop :=
  ∀ bp hint, Event.attemptPreparedConfirmed bp hint ∈ log → node.ConfirmVisible bp hint

instance [Decidable (node.Accepts 0 [])] (s : BallotProtocol) (hint : SCPStatement) :
    Decidable (node.ConfirmVisible s hint) :=
  decidable_of_iff
    (s.mPhase = .PREPARE → s.mPrepared ≠ none →
      ∀ newH ∈ candidatesDesc s.mLatestEnvelopes hint, node.IsNewH s hint newH →
        (∀ h ∈ s.mHighBallot, h.counter = newH.counter → s.mCurrentBallot = some newH →
          ¬ MayCommit s newH) ∧
        (newH = {} → node.Accepts 0 []))
    ⟨fun h hp hpr newH hnew => h hp hpr newH (mem_candidatesDesc.mpr hnew.confirmed.1) hnew,
      fun h hp hpr newH _ hnew => h hp hpr newH hnew⟩

instance [Decidable (node.Accepts 0 [])] (log : List Event) : Decidable (node.LogVisible log) :=
  decidable_of_iff
    ((log.all fun
      | .attemptPreparedConfirmed bp hint => decide (node.ConfirmVisible bp hint)
      | _ => true) = true)
    ⟨fun h bp hint hmem => by simpa using List.all_eq_true.mp h _ hmem,
      fun h => List.all_eq_true.mpr fun e hmem => by
        cases e <;> first | exact decide_eq_true (h _ _ hmem) | rfl⟩

theorem Node.LogVisible.of_subset {l l' : List Event} (h : node.LogVisible l') (hsub : l ⊆ l') :
    node.LogVisible l := fun bp hint hmem => h bp hint (hsub hmem)

/-- What `validateValues` lets through after `k` events carries no value that the driver rejects
then or later; nor is such a value given to the ballot protocol. -/
def Node.Screened (node : Node) (k : ℕ) : Input → Prop
  | .envelope env => node.validateValues k env.statement ≠ .kInvalidValue →
    ∀ β ∈ mentioned env.statement, node.Accepts k β.value
  | .bumpState value _ => node.Accepts k value
  | .updatedCandidateValue value => node.Accepts k value
  | .timerExpired => True
  | .abandonBallot => True

/-! ## Values -/

/-- After `k` events the node's ballots carry acceptable values, except for an empty `p'`, and can be stated. -/
structure Node.Fit (node : Node) (k : ℕ) (x : Ballots) : Prop where
  current : ∀ b, x.b = some b → node.Accepts k b.value
  prepared : ∀ p, x.p = some p → node.Accepts k p.value
  preparedPrime : ∀ p', x.p' = some p' → p' = {} ∨ node.Accepts k p'.value
  high : ∀ h, x.h = some h → node.Accepts k h.value
  below : x.phase = .PREPARE → NotBelow x.h x.p
  accepted : x.phase ≠ .PREPARE → x.p ≠ none
  committed : x.phase = .EXTERNALIZE → ∀ c, x.c = some c → c.counter ≠ 0

/-- A slot whose ballots, and the statements it has recorded, carry acceptable values. -/
structure Node.FitSlot (node : Node) (k : ℕ) (s : Slot) : Prop where
  ballots : node.Fit k s.ballots
  others : ∀ (n : NodeID) (env : SCPEnvelope), n ≠ node.nodeID →
    s.mLatestEnvelopes[n]? = some env → ∀ β ∈ mentioned env.statement, node.Accepts k β.value
  started : s.mLatestEnvelopes[node.nodeID]? ≠ none →
    s.mCurrentBallot ≠ none ∨ s.mPrepared ≠ none

/-- The ballots in the node's own statement are its ballots. Only a `PREPARE` mentions `p'`, and
the empty ballot if there is no current one. -/
theorem mentioned_own {x : Ballots} {pledges : Pledges} (h : node.pledgesOf x = some pledges)
    {β : SCPBallot} (hβ : β ∈ mentioned (node.createEnvelope pledges).statement) :
    x.b = some β ∨ x.p = some β ∨ x.c = some β ∨
      ((∃ p, pledges = .prepare p) ∧ ((x.b = none ∧ β = {}) ∨ x.p' = some β)) := by
  unfold Node.pledgesOf at h
  cases hphase : x.phase <;> simp only [hphase] at h
  · obtain rfl := Option.some.inj h
    simp only [mentioned, Node.createEnvelope, List.cons_append, List.nil_append, List.mem_cons,
      List.mem_append, Option.mem_toList] at hβ
    rcases hβ with rfl | hp | hp'
    · cases hb : x.b with
      | some b => exact Or.inl rfl
      | none => exact Or.inr (Or.inr (Or.inr ⟨⟨_, rfl⟩, Or.inl ⟨rfl, rfl⟩⟩))
    · exact Or.inr (Or.inl hp)
    · exact Or.inr (Or.inr (Or.inr ⟨⟨_, rfl⟩, Or.inr hp'⟩))
  · split at h
    · rename_i hb _
      obtain rfl := Option.some.inj h
      simp only [mentioned, Node.createEnvelope, List.mem_singleton] at hβ
      exact Or.inl (hβ ▸ hb)
    · cases h
  · split at h
    · rename_i hc _
      obtain rfl := Option.some.inj h
      simp only [mentioned, Node.createEnvelope, List.mem_singleton] at hβ
      exact Or.inr (Or.inr (Or.inl (hβ ▸ hc)))
    · cases h

theorem Node.Fit.commit {x : Ballots} (h : node.Fit k x) (hok : x.Ok) {c : SCPBallot}
    (hc : x.c = some c) : node.Accepts k c.value := by
  obtain ⟨h', -, hh, -, ⟨-, hv⟩, -⟩ := hok.commit c hc
  rw [hv]
  exact h.high h' hh

section Values

variable (hrest : Rest node (node.Accepts k) True s) (hok : s.ballots.Ok) (h : node.FitSlot k s)
include hrest hok h

/-- A candidate carries an acceptable value, or is the empty ballot while `p` is set. -/
theorem candidate_accepts {hint : SCPStatement} {ballot : SCPBallot}
    (hmem : ballot ∈ getPrepareCandidates s.mLatestEnvelopes hint) :
    node.Accepts k ballot.value ∨ (ballot = {} ∧ s.mPrepared ≠ none) := by
  obtain ⟨topVote, -, n, env, henv, hcand⟩ := mem_getPrepareCandidates.mp hmem
  obtain ⟨β, hβ, hv, hprep⟩ := candidatesFrom_mentioned hcand
  by_cases hn : n = node.nodeID
  · subst hn
    rcases hrest.sync trivial with ⟨hnone, -⟩ | ⟨pledges, hpl, hown⟩
    · rw [hnone] at henv
      cases henv
    obtain rfl : node.createEnvelope pledges = env := Option.some.inj (hown.symm.trans henv)
    rcases mentioned_own hpl hβ with hb | hp | hc | ⟨hex, ⟨hb, rfl⟩ | hp'⟩
    · exact Or.inl (hv ▸ h.ballots.current β hb)
    · exact Or.inl (hv ▸ h.ballots.prepared β hp)
    · exact Or.inl (hv ▸ h.ballots.commit hok hc)
    · -- a node without a current ballot makes a statement only when it has accepted something
      exact Or.inr ⟨(hprep hex).symm, (h.started (by simp [hown])).resolve_left (by simpa using hb)⟩
    · rcases h.ballots.preparedPrime β hp' with rfl | hacc
      · obtain ⟨p, hp, -⟩ := hrest.prime _ hp'
        exact Or.inr ⟨(hprep hex).symm, by rw [← ballots_p, hp]; simp⟩
      · exact Or.inl (hv ▸ hacc)
  · exact Or.inl (hv ▸ h.others n env hn henv β hβ)

/-- A value that somebody votes to commit is acceptable. -/
theorem commitsTo_accepts {n : NodeID} {env : SCPEnvelope} {x : Value}
    (henv : s.mLatestEnvelopes[n]? = some env) (hx : CommitsTo x env.statement) :
    node.Accepts k x := by
  by_cases hn : n = node.nodeID
  · subst hn
    rcases hrest.sync trivial with ⟨hnone, -⟩ | ⟨pledges, hpl, hown⟩
    · rw [hnone] at henv
      cases henv
    obtain rfl : node.createEnvelope pledges = env := Option.some.inj (hown.symm.trans henv)
    unfold Node.pledgesOf at hpl
    cases hphase : s.ballots.phase <;> simp only [hphase] at hpl
    · obtain rfl := Option.some.inj hpl
      obtain ⟨hnC, rfl⟩ := hx
      have hc : s.ballots.c ≠ none := fun hc => hnC (by simp only [hc]; rfl)
      obtain ⟨c, hc⟩ := Option.ne_none_iff_exists'.mp hc
      obtain ⟨-, b, -, hb, -⟩ := hok.commit c hc
      simp only [hb, Option.getD_some]
      exact h.ballots.current b hb
    · split at hpl
      · rename_i hb _
        obtain rfl := Option.some.inj hpl
        obtain rfl : _ = x := hx
        exact h.ballots.current _ hb
      · cases hpl
    · split at hpl
      · rename_i hc _
        obtain rfl := Option.some.inj hpl
        obtain rfl : _ = x := hx
        exact h.ballots.commit hok hc
      · cases hpl
  · have hothers := h.others n env hn henv
    unfold CommitsTo at hx
    unfold mentioned at hothers
    split at hx <;> rename_i hpl <;> simp only [hpl] at hothers
    · exact hx.2 ▸ hothers _ (by simp)
    · exact hx ▸ hothers _ (by simp)
    · exact hx ▸ hothers _ (by simp)

/-- The value of a ballot that is confirmed as prepared. -/
theorem Guard.confirmPrepared_accepts {newC newH : SCPBallot}
    (hg : Guard node (node.Accepts k) True s (.confirmPrepared newC newH))
    (hvis : node.LogVisible s.log) : node.Accepts k newH.value := by
  obtain ⟨hphase, hsome, ⟨hint, hev, hnewH, -⟩, -⟩ := hg
  rcases candidate_accepts hrest hok h hnewH.confirmed.1 with hacc | ⟨rfl, -⟩
  · exact hacc
  · exact ((hvis _ _ hev hphase hsome _ hnewH).2 rfl).mono (Nat.zero_le k)

theorem Guard.fit_acceptPrepared {ballot : SCPBallot}
    (hg : Guard node (node.Accepts k) True s (.acceptPrepared ballot)) :
    node.Fit k (Change.apply (.acceptPrepared ballot) s.ballots) := by
  have hfit := h.ballots
  have hprep (p : SCPBallot) := hg.prepared_le (p := p)
  obtain ⟨hext, -, hprime, hcov, ⟨hint, hcand⟩, -⟩ := hg
  have hval := candidate_accepts hrest hok h hcand
  have hbelow : s.mPhase = .PREPARE →
      NotBelow s.mHighBallot (Change.apply (.acceptPrepared ballot) s.ballots).p := by
    intro hphase h' hh'
    obtain ⟨p, hp, hle⟩ := hfit.below hphase h' hh'
    obtain ⟨q, hq, hle'⟩ := hprep p hp
    exact ⟨q, hq, hle.trans hle'⟩
  have hacc : s.mPhase ≠ .PREPARE →
      (Change.apply (.acceptPrepared ballot) s.ballots).p ≠ none := by
    intro hphase
    obtain ⟨p, hp⟩ := Option.ne_none_iff_exists'.mp (hfit.accepted hphase)
    obtain ⟨q, hq, -⟩ := hprep p hp
    rw [hq]
    simp
  refine ⟨hfit.current, fun p hp => ?_, fun p' hp' => ?_, hfit.high, hbelow, hacc,
    fun hphase => absurd hphase hext⟩
  · simp only [Change.apply, ballots_p, ballots_p'] at hp
    rcases setPrepared_cases hprime hcov with ⟨hn, hset⟩ | ⟨q, hq, hlt, hset⟩ | ⟨q, hq, -, -, hset⟩
    · rw [hset] at hp
      obtain rfl := Option.some.inj hp
      exact hval.resolve_right fun h => h.2 hn
    · rw [hset] at hp
      obtain rfl := Option.some.inj hp
      refine hval.resolve_right fun h => ?_
      rw [h.1] at hlt
      exact absurd (SCPBallot.default_le q) hlt.not_ge
    · rw [hset] at hp
      obtain rfl := Option.some.inj hp
      exact hfit.prepared _ hq
  · simp only [Change.apply, ballots_p, ballots_p'] at hp'
    rcases setPrepared_cases hprime hcov with ⟨hn, hset⟩ | ⟨q, hq, hlt, hset⟩ | ⟨q, hq, -, -, hset⟩
    · rw [hset] at hp'
      exact hfit.preparedPrime p' hp'
    · rw [hset] at hp'
      simp only at hp'
      split_ifs at hp'
      · exact hfit.preparedPrime p' hp'
      · obtain rfl := Option.some.inj hp'
        exact Or.inr (hfit.prepared _ hq)
    · rw [hset] at hp'
      obtain rfl := Option.some.inj hp'
      exact hval.symm.imp_left And.left

theorem Guard.fit_confirmPrepared {newC newH : SCPBallot}
    (hg : Guard node (node.Accepts k) True s (.confirmPrepared newC newH))
    (hvis : node.LogVisible s.log) :
    node.Fit k (Change.apply (.confirmPrepared newC newH) s.ballots) := by
  have hfit := h.ballots
  have hacc := hg.confirmPrepared_accepts hrest hok h hvis
  obtain ⟨hphase, -, -, hbelow⟩ := hg
  refine ⟨fun b hb => ?_, hfit.prepared, hfit.preparedPrime, fun h' hh' => ?_, fun _ h' hh' => ?_,
    hfit.accepted, fun hph => ?_⟩
  · rcases raiseTo_cases s.mCurrentBallot newH with ⟨heq, -⟩ | ⟨b₀, -, -, heq⟩
    · obtain rfl : newH = b := Option.some.inj (heq.symm.trans hb)
      exact hacc
    · exact hfit.current b (heq.symm.trans hb)
  · obtain rfl : newH = h' := Option.some.inj hh'
    exact hacc
  · obtain rfl : newH = h' := Option.some.inj hh'
    exact hbelow trivial
  · rw [show (Change.apply (.confirmPrepared newC newH) s.ballots).phase = .PREPARE from hphase]
      at hph
    cases hph

theorem Guard.fit_acceptCommit {c h' : SCPBallot}
    (hg : Guard node (node.Accepts k) True s (.acceptCommit c h')) :
    node.Fit k (Change.apply (.acceptCommit c h') s.ballots) := by
  have hfit := h.ballots
  obtain ⟨hext, hne, -, -, -, ⟨n, env, henv, hx⟩, hsome⟩ := hg
  have hacc := commitsTo_accepts hrest hok h henv hx
  have hraise (b₀ : Option SCPBallot) (hb₀ : ∀ b, b₀ = some b → node.Accepts k b.value)
      (b : SCPBallot) (hb : raiseTo b₀ h' = some b) : node.Accepts k b.value := by
    rcases raiseTo_cases b₀ h' with ⟨heq, -⟩ | ⟨b₁, -, -, heq⟩
    · obtain rfl : h' = b := Option.some.inj (heq.symm.trans hb)
      exact hacc
    · exact hb₀ b (heq.symm.trans hb)
  have hhigh : ∀ high, some h' = some high → node.Accepts k high.value := by
    intro high hh
    obtain rfl := Option.some.inj hh
    exact hacc
  by_cases hphase : s.mPhase = .PREPARE
  · rw [Change.apply_acceptCommit_prepare hphase]
    refine ⟨hraise _ fun b hb => ?_, hfit.prepared, by simp, hhigh, by simp,
      fun _ => hsome trivial, by simp⟩
    unfold alignTo at hb
    split_ifs at hb
    · obtain rfl := Option.some.inj hb
      exact hacc
    · exact hfit.current b hb
  · rw [Change.apply_acceptCommit_confirm hphase]
    exact ⟨hraise _ hfit.current, hfit.prepared, hfit.preparedPrime, hhigh,
      fun hph => absurd hph hphase, fun _ => hsome trivial, fun hph => absurd hph hext⟩

omit hrest in
theorem Guard.fit_confirmCommit {c h' : SCPBallot}
    (hg : Guard node (node.Accepts k) True s (.confirmCommit c h')) :
    node.Fit k (Change.apply (.confirmCommit c h') s.ballots) := by
  have hfit := h.ballots
  obtain ⟨hphase, hne, -, hv, ⟨c₀, -, hc₀, -, hcv⟩, -⟩ := hg
  have hacc : node.Accepts k h'.value := by
    rw [← hv, ← hcv]
    exact hfit.commit hok hc₀
  refine ⟨fun b hb => ?_, hfit.prepared, hfit.preparedPrime, fun high hh => ?_,
    by simp [Change.apply], fun _ => hfit.accepted (by simp [hphase]), fun _ commit hc => ?_⟩
  · rcases raiseTo_cases s.mCurrentBallot h' with ⟨heq, -⟩ | ⟨b₀, -, -, heq⟩
    · obtain rfl : h' = b := Option.some.inj (heq.symm.trans hb)
      exact hacc
    · exact hfit.current b (heq.symm.trans hb)
  · obtain rfl : h' = high := Option.some.inj hh
    exact hacc
  · obtain rfl : c = commit := Option.some.inj hc
    exact hne

omit hrest hok in
theorem Guard.fit_bump {newb : SCPBallot} (hg : Guard node (node.Accepts k) True s (.bump newb)) :
    node.Fit k (Change.apply (.bump newb) s.ballots) := by
  have hfit := h.ballots
  obtain ⟨hext, -, -, -, hhigh, hval⟩ := hg
  refine ⟨fun b hb => ?_, hfit.prepared, hfit.preparedPrime, hfit.high, hfit.below, hfit.accepted,
    fun hphase => absurd hphase hext⟩
  obtain rfl : newb = b := Option.some.inj hb
  cases hh : s.mHighBallot with
  | none =>
    rcases hval hh with hacc | ⟨b₀, hb₀, hv⟩
    · exact hacc
    · exact hv ▸ hfit.current b₀ hb₀
  | some h' => exact hhigh h' hh ▸ hfit.high h' hh

/-- Every change keeps the ballots fit. -/
theorem Guard.fit {ch : Change} (hg : Guard node (node.Accepts k) True s ch)
    (hvis : node.LogVisible s.log) : node.Fit k (ch.apply s.ballots) := by
  cases ch with
  | acceptPrepared ballot => exact hg.fit_acceptPrepared hrest hok h
  | confirmPrepared newC newH => exact hg.fit_confirmPrepared hrest hok h hvis
  | acceptCommit c h' => exact hg.fit_acceptCommit hrest hok h
  | confirmCommit c h' => exact hg.fit_confirmCommit hok h
  | bump newb => exact hg.fit_bump h

end Values

/-! ## The statement is sane -/

theorem pledgesOf_prepare {x : Ballots} (h : x.phase = .PREPARE) :
    node.pledgesOf x = some (.prepare
      { quorumSetHash := node.qSetHash
        ballot := x.b.getD {}
        prepared := x.p
        preparedPrime := x.p'
        nC := (x.c.map SCPBallot.counter).getD 0
        nH := (x.h.map SCPBallot.counter).getD 0 }) := by
  simp only [Node.pledgesOf, h]

theorem pledgesOf_confirm {x : Ballots} {c h b p : SCPBallot} (hphase : x.phase = .CONFIRM)
    (hc : x.c = some c) (hh : x.h = some h) (hb : x.b = some b) (hp : x.p = some p) :
    node.pledgesOf x = some (.confirm ⟨b, p.counter, c.counter, h.counter, node.qSetHash⟩) := by
  simp only [Node.pledgesOf, hphase, hc, hh, hb, hp]

theorem pledgesOf_externalize {x : Ballots} {c h : SCPBallot} (hphase : x.phase = .EXTERNALIZE)
    (hc : x.c = some c) (hh : x.h = some h) :
    node.pledgesOf x = some (.externalize ⟨c, h.counter, node.qSetHash⟩) := by
  simp only [Node.pledgesOf, hphase, hc, hh]

/-- The ballots a statement after `PREPARE` is made of. -/
theorem Node.Fit.present {x : Ballots} (hfit : node.Fit k x) (hok : x.Ok)
    (hphase : x.phase ≠ .PREPARE) :
    ∃ c h b p, x.c = some c ∧ x.h = some h ∧ x.b = some b ∧ x.p = some p ∧
      c.counter ≤ h.counter ∧ h.counter ≤ b.counter := by
  obtain ⟨c, hc⟩ := Option.ne_none_iff_exists'.mp (hok.committed hphase)
  obtain ⟨p, hp⟩ := Option.ne_none_iff_exists'.mp (hfit.accepted hphase)
  obtain ⟨h, b, hh, hb, ⟨hle, -⟩, hle', -⟩ := hok.commit c hc
  exact ⟨c, h, b, p, hc, hh, hb, hp, SCPBallot.counter_le hle, SCPBallot.counter_le hle'⟩

/-- Fit ballots give a sane statement. -/
theorem Node.Fit.pledges {x : Ballots} (hfit : node.Fit k x) (hok : x.Ok) (hprime : x.PrimeBelow) :
    ∃ pledges, node.pledgesOf x = some pledges ∧ pledgesSane pledges true = true := by
  cases hphase : x.phase with
  | PREPARE =>
    refine ⟨_, pledgesOf_prepare hphase, ?_⟩
    simp only [pledgesSane, Bool.true_or, Bool.true_and, Bool.and_eq_true, Bool.or_eq_true,
      decide_eq_true_eq]
    refine ⟨⟨?_, ?_⟩, ?_⟩
    · cases hp' : x.p' with
      | none => rfl
      | some p' =>
        obtain ⟨p, hp, hle, hne⟩ := hprime p' hp'
        simp [hp, hle, hne]
    · cases hh : x.h with
      | none => exact Or.inl rfl
      | some h =>
        obtain ⟨p, hp, hle⟩ := hfit.below hphase h hh
        right
        simpa [hp] using SCPBallot.counter_le hle
    · cases hc : x.c with
      | none => exact Or.inl rfl
      | some c =>
        obtain ⟨h, b, hh, hb, ⟨hle, -⟩, hle', -⟩ := hok.commit c hc
        have hch := SCPBallot.counter_le hle
        by_cases h0 : c.counter = 0
        · exact Or.inl h0
        · right
          simp only [hh, hb, Option.map_some, Option.getD_some]
          refine ⟨fun h1 => h0 ?_, SCPBallot.counter_le hle', hch⟩
          rw [h1] at hch
          exact Fin.le_zero_iff.mp hch
  | CONFIRM =>
    obtain ⟨c, h, b, p, hc, hh, hb, hp, hch, hhb⟩ := hfit.present hok (by simp [hphase])
    refine ⟨_, pledgesOf_confirm hphase hc hh hb hp, ?_⟩
    simp [pledgesSane, hch, hhb, Fin.pos_iff_ne_zero, hok.counter_ne b hb]
  | EXTERNALIZE =>
    obtain ⟨c, h, b, p, hc, hh, hb, hp, hch, -⟩ := hfit.present hok (by simp [hphase])
    refine ⟨_, pledgesOf_externalize hphase hc hh, ?_⟩
    simp [pledgesSane, hch, Fin.pos_iff_ne_zero, hfit.committed hphase c hc]

theorem isStatementSane_own {x : Ballots} {pledges : Pledges}
    (h : node.pledgesOf x = some pledges) (hsane : pledgesSane pledges true = true) :
    node.isStatementSane (node.createEnvelope pledges).statement true = true := by
  have hset : (node.getQuorumSetFromStatement (node.createEnvelope pledges).statement).any
      (fun q => isQuorumSetSane q false) = true := by
    unfold Node.pledgesOf at h
    cases hphase : x.phase <;> simp only [hphase] at h
    · obtain rfl := Option.some.inj h
      simp [Node.getQuorumSetFromStatement, Node.createEnvelope, node.getQSet_qSetHash,
        node.qSet_sane]
    · split at h
      · obtain rfl := Option.some.inj h
        simp [Node.getQuorumSetFromStatement, Node.createEnvelope, node.getQSet_qSetHash,
          node.qSet_sane]
      · cases h
    · split at h
      · obtain rfl := Option.some.inj h
        simp [Node.getQuorumSetFromStatement, Node.createEnvelope, isQuorumSetSane_singleton]
      · cases h
  rw [Node.isStatementSane, hset, Bool.true_and]
  exact hsane

theorem validateLoop_accepts {n : ℕ} (hn : k ≤ n) {l : List Value} (hl : ∀ v ∈ l, node.Accepts k v)
    {res : ValidationLevel} (hres : res ≠ .kInvalidValue) :
    node.validateLoop n l res ≠ .kInvalidValue := by
  induction l generalizing res with
  | nil => exact hres
  | cons v l ih =>
    have hv := hl v (by simp) n hn
    have hl' : ∀ v ∈ l, node.Accepts k v := fun v hmem => hl v (by simp [hmem])
    unfold Node.validateLoop
    split
    · exact ih hl' hres
    · contradiction
    · exact ih hl' (by simp)

/-- Fit ballots give a statement with acceptable values. -/
theorem Node.Fit.validateValues {x : Ballots} {pledges : Pledges} {n : ℕ} (hfit : node.Fit k x)
    (hok : x.Ok) (h : node.pledgesOf x = some pledges) (hn : k ≤ n) :
    node.validateValues n (node.createEnvelope pledges).statement ≠ .kInvalidValue := by
  refine validateLoop_accepts hn (fun v hv => ?_) (by simp)
  rw [Std.ExtTreeSet.mem_toList] at hv
  cases hphase : x.phase with
  | PREPARE =>
    rw [pledgesOf_prepare hphase] at h
    obtain rfl := Option.some.inj h
    simp only [valuesToValidate, Node.createEnvelope, Std.ExtTreeSet.mem_ofList,
      List.contains_eq_mem, List.mem_append, decide_eq_true_eq] at hv
    rcases hv with hv | hv
    · split_ifs at hv with h0
      · obtain rfl := List.mem_singleton.mp hv
        cases hb : x.b with
        | none => simp [hb] at h0
        | some b => exact hfit.current b hb
      · cases hv
    · simp only [Option.mem_toList, Option.map_eq_some_iff] at hv
      obtain ⟨p, hp, rfl⟩ := hv
      exact hfit.prepared p hp
  | CONFIRM =>
    obtain ⟨c, h', b, p, hc, hh, hb, hp, -⟩ := hfit.present hok (by simp [hphase])
    rw [pledgesOf_confirm hphase hc hh hb hp] at h
    obtain rfl := Option.some.inj h
    obtain rfl : b.value = v := by
      simpa [valuesToValidate, Node.createEnvelope, Std.ExtTreeSet.mem_ofList] using hv
    exact hfit.current b hb
  | EXTERNALIZE =>
    obtain ⟨c, h', b, p, hc, hh, -⟩ := hfit.present hok (by simp [hphase])
    rw [pledgesOf_externalize hphase hc hh] at h
    obtain rfl := Option.some.inj h
    obtain rfl : c.value = v := by
      simpa [valuesToValidate, Node.createEnvelope, Std.ExtTreeSet.mem_ofList] using hv
    exact hfit.commit hok hc

/-! ## The statement is news -/

/-- Same as the old pledges, or above them in the order of statements. -/
def Pledges.NotBefore (old new : Pledges) : Prop := new = old ∨ old.key < new.key

theorem Pledges.key_lt_of_type {a b : Pledges} (h : a.type.toNat < b.type.toNat) :
    a.key < b.key := by
  cases a <;> cases b <;>
    simp_all [Pledges.key, Pledges.type, Phase.toNat, Prod.Lex.toLex_lt_toLex]

theorem pledgesOf_type {x : Ballots} {pledges : Pledges} (h : node.pledgesOf x = some pledges) :
    pledges.type = x.phase := by
  unfold Node.pledgesOf at h
  cases hphase : x.phase <;> simp only [hphase] at h
  · obtain rfl := Option.some.inj h
    rfl
  · split at h
    · obtain rfl := Option.some.inj h
      rfl
    · cases h
  · split at h
    · obtain rfl := Option.some.inj h
      rfl
    · cases h

/-- Two `PREPARE` statements, compared by `b`, then `p`, then `p'`, then `h`. -/
theorem key_lt_prepare {x y : Ballots} {old new : Pledges} (hx : node.pledgesOf x = some old)
    (hy : node.pledgesOf y = some new) (hxp : x.phase = .PREPARE) (hyp : y.phase = .PREPARE)
    (h : x.b.getD {} < y.b.getD {} ∨ x.b.getD {} = y.b.getD {} ∧
      (ptrKey x.p < ptrKey y.p ∨ x.p = y.p ∧
        (ptrKey x.p' < ptrKey y.p' ∨ x.p' = y.p' ∧
          (x.h.map SCPBallot.counter).getD 0 < (y.h.map SCPBallot.counter).getD 0))) :
    old.key < new.key := by
  rw [pledgesOf_prepare hxp] at hx
  rw [pledgesOf_prepare hyp] at hy
  obtain rfl := Option.some.inj hx
  obtain rfl := Option.some.inj hy
  simp only [Pledges.key, Prod.Lex.toLex_lt_toLex, lt_self_iff_false, true_and, false_or,
    ptrKey_injective.eq_iff]
  exact h

/-- Two `CONFIRM` statements, compared by `b`, then the counter of `p`, then that of `h`. -/
theorem key_lt_confirm {x y : Ballots} {old new : Pledges} {b p h b' p' h' : SCPBallot}
    (hx : node.pledgesOf x = some old) (hy : node.pledgesOf y = some new)
    (hxp : x.phase = .CONFIRM) (hyp : y.phase = .CONFIRM)
    (hb : x.b = some b) (hp : x.p = some p) (hh : x.h = some h)
    (hb' : y.b = some b') (hp' : y.p = some p') (hh' : y.h = some h')
    (hlt : b < b' ∨ b = b' ∧ (p.counter < p'.counter ∨ p.counter = p'.counter ∧
      h.counter < h'.counter)) : old.key < new.key := by
  unfold Node.pledgesOf at hx hy
  simp only [hxp, hyp, hb, hp, hh, hb', hp', hh'] at hx hy
  split at hx
  · rename_i hbx hpx hhx
    split at hy
    · rename_i hby hpy hhy
      simp only [Option.some.injEq] at hbx hpx hhx hby hpy hhy
      subst hbx hpx hhx hby hpy hhy
      obtain rfl := Option.some.inj hx
      obtain rfl := Option.some.inj hy
      simp only [Pledges.key, ptrKey, Prod.Lex.toLex_lt_toLex, lt_self_iff_false, true_and,
        false_or, WithBot.coe_lt_coe, WithBot.coe_inj, SCPBallot.lt_iff, SCPBallot.mk.injEq,
        and_true, and_false, or_false] at hlt ⊢
      exact hlt
    · cases hy
  · cases hx

theorem ptrKey_none_lt {b : SCPBallot} : ptrKey none < ptrKey (some b) := WithBot.bot_lt_coe b

theorem ptrKey_lt {a b : SCPBallot} (h : a < b) : ptrKey (some a) < ptrKey (some b) :=
  WithBot.coe_lt_coe.mpr h

section News

variable {old new : Pledges} (hold : node.pledgesOf s.ballots = some old)
include hold

/-- Accepting a ballot as prepared raises `p`, or keeps it and raises `p'`. -/
theorem Guard.news_acceptPrepared {ballot : SCPBallot}
    (hg : Guard node V F s (.acceptPrepared ballot)) (hfit : node.Fit k s.ballots)
    (hok : s.ballots.Ok)
    (hnew : node.pledgesOf (Change.apply (.acceptPrepared ballot) s.ballots) = some new) :
    old.key < new.key := by
  obtain ⟨hext, hconf, hprime, hcov, -, -⟩ := hg
  have hprime' : ptrKey s.mPreparedPrime < ptrKey (some ballot) := by
    cases hp' : s.mPreparedPrime with
    | none => exact ptrKey_none_lt
    | some p' => exact ptrKey_lt (hprime p' hp')
  by_cases hphase : s.mPhase = .PREPARE
  · refine key_lt_prepare hold hnew hphase hphase (Or.inr ⟨rfl, ?_⟩)
    simp only [Change.apply, ballots_p, ballots_p']
    rcases setPrepared_cases hprime hcov with ⟨hn, hset⟩ | ⟨q, hq, hlt, hset⟩ | ⟨q, hq, -, -, hset⟩
    · rw [hset, hn]
      exact Or.inl ptrKey_none_lt
    · rw [hset, hq]
      exact Or.inl (ptrKey_lt hlt)
    · rw [hset, hq]
      exact Or.inr ⟨rfl, Or.inl hprime'⟩
  · have hph : s.mPhase = .CONFIRM := by
      cases hph : s.mPhase <;> simp_all
    obtain ⟨p, hp, hle, hv⟩ := hconf hph
    obtain ⟨c, h, b, -, -, hh, hb, -⟩ := hfit.present hok hphase
    have hlt : p < ballot := lt_of_le_of_ne hle fun heq => hcov p hp ⟨heq.ge, by rw [heq]⟩
    rcases setPrepared_cases hprime hcov with ⟨hn, -⟩ | ⟨q, hq, -, hset⟩ | ⟨q, hq, hlt', -⟩
    · rw [hn] at hp
      cases hp
    · have hpnew : (Change.apply (.acceptPrepared ballot) s.ballots).p = some ballot := by
        simp only [Change.apply, ballots_p, ballots_p', hset]
      exact key_lt_confirm hold hnew hph hph hb hp hh hb hpnew hh
        (Or.inr ⟨rfl, Or.inl (SCPBallot.counter_lt_of_lt hv hlt)⟩)
    · obtain rfl : q = p := Option.some.inj (hq.symm.trans hp)
      exact absurd hlt hlt'.not_gt

/-- A confirmed ballot raises `b` or the counter of `h`, or changes nothing, unless `c` is all it
changes. -/
theorem Guard.news_confirmPrepared {newC newH : SCPBallot}
    (hg : Guard node V F s (.confirmPrepared newC newH)) (hvis : node.LogVisible s.log)
    (hok : (Change.apply (.confirmPrepared newC newH) s.ballots).Ok)
    (hnew : node.pledgesOf (Change.apply (.confirmPrepared newC newH) s.ballots) = some new) :
    old.NotBefore new := by
  obtain ⟨hphase, hsome, ⟨hint, hev, hnewH, hnewC⟩, -⟩ := hg
  obtain ⟨hvisible, -⟩ := hvis _ _ hev hphase hsome newH hnewH
  have hlt := key_lt_prepare hold hnew hphase hphase
  rcases raiseTo_cases s.mCurrentBallot newH with ⟨heq, hraise⟩ | ⟨b, hb, hle, heq⟩
  · refine Or.inr (hlt (Or.inl ?_))
    simp only [Change.apply, ballots_b, heq, Option.getD_some]
    cases hb : s.mCurrentBallot with
    | none => exact SCPBallot.lt_of_counter_lt (Fin.pos_iff_ne_zero.mpr (hok.counter_ne newH heq))
    | some b => exact hraise b hb
  · rcases (show (s.mHighBallot.map SCPBallot.counter).getD 0 ≤ newH.counter by
      cases hh : s.mHighBallot with
      | none => exact Fin.zero_le _
      | some h => exact SCPBallot.counter_le (hnewH.above h hh).le).lt_or_eq with hlt' | heq'
    · refine Or.inr (hlt (Or.inr ⟨?_, Or.inr ⟨rfl, Or.inr ⟨rfl, hlt'⟩⟩⟩))
      simp only [Change.apply, ballots_b, heq]
    · -- the counter of `h` stays, so `c` must stay too
      have h0 : newC.counter = 0 := by
        by_contra hne
        obtain ⟨hmay, hisC⟩ := hnewC hne
        have hbC : b ≤ newC := by simpa [hb] using hisC.inRun.current_le
        obtain rfl : newH = b := le_antisymm hle (hbC.trans hisC.inRun.le_newH)
        cases hh : s.mHighBallot with
        | none =>
          have hle' := SCPBallot.counter_le hisC.inRun.le_newH
          rw [hh] at heq'
          rw [← heq'] at hle'
          exact hne (Fin.le_zero_iff.mp hle')
        | some h =>
          rw [hh] at heq'
          exact hvisible h hh heq' hb hmay
      left
      rw [pledgesOf_prepare hphase] at hold
      rw [pledgesOf_prepare hphase] at hnew
      rw [← Option.some.inj hold, ← Option.some.inj hnew]
      simp only [Change.apply, ballots_b, ballots_c, ballots_h, heq, h0, ne_eq, not_true_eq_false,
        if_false, Option.map_some, Option.getD_some, heq']

/-- Every change gives the recorded statement again, or a newer one. -/
theorem Guard.notBefore {ch : Change} (hg : Guard node V F s ch) (hfit : node.Fit k s.ballots)
    (hok : s.ballots.Ok) (hvis : node.LogVisible s.log) (hok' : (ch.apply s.ballots).Ok)
    (hnew : node.pledgesOf (ch.apply s.ballots) = some new) :
    old.NotBefore new := by
  have htype : s.mPhase.toNat < (ch.apply s.ballots).phase.toNat → old.NotBefore new := by
    intro h
    refine Or.inr (Pledges.key_lt_of_type ?_)
    rwa [pledgesOf_type hold, pledgesOf_type hnew]
  cases ch with
  | acceptPrepared ballot => exact Or.inr (hg.news_acceptPrepared hold hfit hok hnew)
  | confirmPrepared newC newH => exact hg.news_confirmPrepared hold hvis hok' hnew
  | acceptCommit c h =>
    obtain ⟨hext, -, -, -, hconf, -⟩ := hg
    by_cases hphase : s.mPhase = .PREPARE
    · refine htype ?_
      simp [Change.apply, hphase, Phase.toNat]
    · have hph : s.mPhase = .CONFIRM := by
        cases hph : s.mPhase <;> simp_all
      rw [Change.apply_acceptCommit_confirm hphase] at hnew
      obtain ⟨h₀, hh₀, -, hlt⟩ := hconf hph
      obtain ⟨-, -, b, p, -, -, hb, hp, -⟩ := hfit.present hok hphase
      right
      rcases raiseTo_cases s.mCurrentBallot h with ⟨heq, hraise⟩ | ⟨-, -, -, heq⟩
      · exact key_lt_confirm hold hnew hph hph hb hp hh₀ heq hp rfl (Or.inl (hraise b hb))
      · exact key_lt_confirm hold hnew hph hph hb hp hh₀ (heq.trans hb) hp rfl
          (Or.inr ⟨rfl, Or.inr ⟨rfl, hlt⟩⟩)
  | confirmCommit c h =>
    refine htype ?_
    simp [Change.apply, hg.1, Phase.toNat]
  | bump newb =>
    obtain ⟨hext, hne, hlt, -⟩ := hg
    right
    by_cases hphase : s.mPhase = .PREPARE
    · refine key_lt_prepare hold hnew hphase hphase (Or.inl ?_)
      simp only [Change.apply, ballots_b, Option.getD_some]
      cases hb : s.mCurrentBallot with
      | none => exact SCPBallot.lt_of_counter_lt (Fin.pos_iff_ne_zero.mpr hne)
      | some b => exact hlt b hb
    · have hph : s.mPhase = .CONFIRM := by
        cases hph : s.mPhase <;> simp_all
      obtain ⟨-, h, b, p, -, hh, hb, hp, -⟩ := hfit.present hok hphase
      exact key_lt_confirm hold hnew hph hph hb hp hh rfl hp hh (Or.inl (hlt b hb))

end News

/-! ## Whole runs -/

/-- The statement is sane, and it is the node's recorded one or newer. -/
structure Node.GoodStatement (node : Node) (bp : BallotProtocol) (env : SCPEnvelope) : Prop where
  sane : node.isStatementSane env.statement true = true
  news : bp.mLatestEnvelopes[node.nodeID]? = some env ∨
    isNewerStatementFor bp.mLatestEnvelopes node.nodeID env.statement = true

theorem raiseTo_ne_none (b : Option SCPBallot) (h : SCPBallot) : raiseTo b h ≠ none := by
  rcases raiseTo_cases b h with ⟨heq, -⟩ | ⟨b₀, hb₀, -, heq⟩
  · rw [heq]
    simp
  · rw [heq, hb₀]
    simp

/-- After any change there is a current or a prepared ballot. -/
theorem Guard.started {ch : Change} (hg : Guard node V F s ch) :
    (ch.apply s.ballots).b ≠ none ∨ (ch.apply s.ballots).p ≠ none := by
  cases ch with
  | acceptPrepared ballot =>
    right
    obtain ⟨-, -, hprime, hcov, -⟩ := hg
    simp only [Change.apply, ballots_p, ballots_p']
    rcases setPrepared_cases hprime hcov with ⟨-, h⟩ | ⟨q, -, -, h⟩ | ⟨q, -, -, -, h⟩ <;> simp [h]
  | confirmPrepared newC newH => exact Or.inl (raiseTo_ne_none _ _)
  | acceptCommit c h =>
    left
    simp only [Change.apply]
    split_ifs <;> exact raiseTo_ne_none _ _
  | confirmCommit c h => exact Or.inl (raiseTo_ne_none _ _)
  | bump newb => exact Or.inl (by simp [Change.apply])

/-- What a change lets the node state is good, and can be processed. -/
theorem Guard.goodStatement {ch : Change} (hg : Guard node (node.Accepts k) True s ch)
    (hrest : Rest node (node.Accepts k) True s) (hok : s.ballots.Ok) (h : node.FitSlot k s)
    (hvis : node.LogVisible s.log) (hok' : (ch.apply s.ballots).Ok) {bp : BallotProtocol}
    (hb : bp.ballots = ch.apply s.ballots) (henvs : bp.mLatestEnvelopes = s.mLatestEnvelopes) :
    ∃ pledges, node.pledgesOf (ch.apply s.ballots) = some pledges ∧
      node.GoodStatement bp (node.createEnvelope pledges) ∧
      (s.mLatestEnvelopes[node.nodeID]? ≠ some (node.createEnvelope pledges) →
        ∀ n ≥ k, node.Processable n bp (node.createEnvelope pledges).statement) := by
  have hfit := hg.fit hrest hok h hvis
  obtain ⟨pledges, hpl, hsane⟩ := hfit.pledges hok' (hg.primeBelow hrest.prime)
  have hnews : s.mLatestEnvelopes[node.nodeID]? = some (node.createEnvelope pledges) ∨
      isNewerStatementFor s.mLatestEnvelopes node.nodeID
        (node.createEnvelope pledges).statement = true := by
    unfold isNewerStatementFor
    rcases hrest.sync trivial with ⟨hnone, -⟩ | ⟨old, hold, hown⟩
    · rw [hnone]
      exact Or.inr rfl
    · rw [hown]
      rcases hg.notBefore hold h.ballots hok hvis hok' hpl with rfl | hlt
      · exact Or.inl rfl
      · exact Or.inr (isNewerStatement_iff.mpr hlt)
  refine ⟨pledges, hpl, ⟨isStatementSane_own hpl hsane, by rwa [henvs]⟩, fun hne n hn => ?_⟩
  refine ⟨isStatementSane_own hpl hsane, ?_, hfit.validateValues hok' hpl hn, fun hphase => ?_⟩
  · rw [henvs]
    exact hnews.resolve_left hne
  · have hphase' : (ch.apply s.ballots).phase = .EXTERNALIZE := by rw [← hb]; exact hphase
    obtain ⟨c, h', -, -, hc, hh, -⟩ := hfit.present hok' (by simp [hphase'])
    rw [pledgesOf_externalize hphase' hc hh] at hpl
    obtain rfl := Option.some.inj hpl
    exact ⟨c, by rw [← ballots_c, hb, hc], rfl⟩

/-- The node's recorded statement is not older than any it has made. -/
def Node.Signed (node : Node) (s : Slot) : Prop :=
  ∀ bp env, Event.emitCurrentStateStatement bp env ∈ s.log →
    ∃ cur, s.mLatestEnvelopes[node.nodeID]? = some cur ∧
      (cur = env ∨ isNewerStatement env.statement cur.statement = true)

/-- A step that makes no statement and does not touch the node's own. -/
theorem Node.Signed.of_same (h : node.Signed s)
    (hown : t.mLatestEnvelopes[node.nodeID]? = s.mLatestEnvelopes[node.nodeID]?)
    (hlog : ∀ bp env, Event.emitCurrentStateStatement bp env ∈ t.log →
      Event.emitCurrentStateStatement bp env ∈ s.log) : node.Signed t := by
  intro bp env hmem
  rw [hown]
  exact h bp env (hlog bp env hmem)

theorem Step.signed (hst : Step node V True R inner s t) (h : node.Signed s) : node.Signed t := by
  cases hst with
  | quiet hq =>
    exact h.of_same (by rw [hq.envelopes]) fun _ _ => (hq.log.mem (by simp [Event.Quiet])).mp
  | probe hint => exact h.of_same rfl fun _ _ hmem => by simpa using hmem
  | publish ch env hbump hg hp =>
    intro bp env' hmem
    rw [hp.envelopes, getElem?_insert_self]
    refine ⟨env, rfl, ?_⟩
    rcases (hp.log.mem (by simp [Event.Quiet])).mp hmem with hmem' | ⟨bp', -, -, heq, -⟩
    · obtain ⟨cur, hcur, hor⟩ := h bp env' hmem'
      rcases hp.processable with hrec | ⟨bp', n, -, henvs, -, -, hproc⟩
      · obtain rfl : cur = env := Option.some.inj (hcur.symm.trans hrec)
        exact hor
      · have hnewer := hproc.newer
        rw [henvs, isNewerStatementFor, hcur] at hnewer
        rcases hor with rfl | hor
        · exact Or.inr hnewer
        · exact Or.inr (isNewerStatement_trans hor hnewer)
    · exact Or.inl (Event.emitCurrentStateStatement.inj heq).2.symm
  | remember env hn => exact h.of_same rfl fun _ _ hmem => hmem
  | send env hlast hemit => exact h.of_same rfl fun _ _ hmem => by simpa using hmem
  | externalize v hphase hcommit hnone => exact h.of_same rfl fun _ _ hmem => by simpa using hmem
  | receive env hin hr =>
    refine h.of_same ?_ fun _ _ => (hr.quiet.mem (by simp [Event.Quiet])).mp
    rw [hr.envelopes, getElem?_insert_ne (hr.own trivial)]

/-- What is kept as long as confirmations are visible and what comes in is accepted after `k` events.
-/
structure Node.Stating (node : Node) (k : ℕ) (s : Slot) : Prop where
  since : k ≤ s.log.length
  rest : Rest node (node.Accepts k) True s
  sound : Sound s
  fit : node.FitSlot k s
  statements : ∀ bp env, Event.emitCurrentStateStatement bp env ∈ s.log →
    node.GoodStatement bp env

theorem stating_freshSlot : node.Stating 0 (freshSlot node) where
  since := Nat.zero_le _
  rest := rest_freshSlot
  sound := sound_freshSlot
  fit :=
    { ballots := by constructor <;> simp [freshSlot, NotBelow]
      others := by simp [freshSlot]
      started := by simp [freshSlot] }
  statements := by simp [freshSlot]

/-- A slot whose ballots and recorded statements did not change stays fit. -/
theorem Node.FitSlot.of_same (h : node.FitSlot k s) (hb : t.ballots = s.ballots)
    (he : t.mLatestEnvelopes = s.mLatestEnvelopes) : node.FitSlot k t where
  ballots := by rw [hb]; exact h.ballots
  others := by rw [he]; exact h.others
  started := by
    rw [he, ← ballots_b, ← ballots_p, hb]
    exact h.started

theorem Step.fitSlot (hst : Step node (node.Accepts k) True R inner s t) (h : node.Stating k s)
    (hvis : node.LogVisible s.log) : node.FitSlot k t := by
  cases hst with
  | quiet hq => exact h.fit.of_same hq.ballots hq.envelopes
  | probe hint => exact h.fit.of_same rfl rfl
  | publish ch env hbump hg hp =>
    refine ⟨?_, fun n env' hn henv => ?_, fun _ => ?_⟩
    · rw [hp.ballots]
      exact hg.fit h.rest h.sound.now h.fit hvis
    · rw [hp.envelopes, getElem?_insert_ne hn.symm] at henv
      exact h.fit.others n env' hn henv
    · rw [← ballots_b, ← ballots_p, hp.ballots]
      exact hg.started
  | remember env hn => exact h.fit.of_same rfl rfl
  | send env hlast hemit => exact h.fit.of_same rfl rfl
  | externalize v hphase hcommit hnone => exact h.fit.of_same rfl rfl
  | receive env hin hr =>
    refine ⟨?_, fun n env' hn henv => ?_, fun hown => ?_⟩
    · rw [hr.ballots]
      exact h.fit.ballots
    · rw [hr.envelopes] at henv
      by_cases heq : env.statement.nodeID = n
      · subst heq
        rw [getElem?_insert_self] at henv
        obtain rfl := Option.some.inj henv
        exact hr.values trivial
      · exact h.fit.others n env' hn (by rwa [getElem?_insert_ne heq] at henv)
    · rw [hr.envelopes, getElem?_insert_ne (hr.own trivial)] at hown
      rw [← ballots_b, ← ballots_p, hr.ballots]
      exact h.fit.started hown

/-- An emission adds one good statement to the log. -/
theorem EmitLog.goodStatement {ch : Change} {pledges : Pledges} (h : node.Stating k s)
    (hg : Guard node (node.Accepts k) True s ch) (hvis : node.LogVisible s.log)
    (hb : t.ballots = ch.apply s.ballots) (hok : t.ballots.Ok)
    (hpl : node.pledgesOf t.ballots = some pledges)
    (hlog : EmitLog s t (node.createEnvelope pledges)) :
    ∀ bp env, Event.emitCurrentStateStatement bp env ∈ t.log → node.GoodStatement bp env := by
  intro bp env hmem
  rcases (hlog.mem (by simp [Event.Quiet])).mp hmem with hmem' | ⟨bp', hbp, henvs, heq, -⟩
  · exact h.statements bp env hmem'
  · obtain ⟨rfl, rfl⟩ := Event.emitCurrentStateStatement.inj heq
    obtain ⟨pledges', hpl', hgood, -⟩ := hg.goodStatement h.rest h.sound.now h.fit hvis
      (by rwa [← hb]) (hbp.trans hb) henvs
    rw [hb, hpl'] at hpl
    obtain rfl := Option.some.inj hpl
    exact hgood

theorem Step.stating (hst : Step node (node.Accepts k) True R inner s t)
    (hvis : node.LogVisible t.log) (h : node.Stating k s) : node.Stating k t := by
  have hvis' := hvis.of_subset hst.log_subset
  refine ⟨h.since.trans hst.log_isPrefix.length_le, hst.rest h.rest, hst.sound h.sound,
    hst.fitSlot h hvis', ?_⟩
  cases hst with
  | quiet hq =>
    exact fun bp env hmem => h.statements bp env ((hq.log.mem (by simp [Event.Quiet])).mp hmem)
  | probe hint => exact fun bp env hmem => h.statements bp env (by simpa using hmem)
  | publish ch env hbump hg hp =>
    obtain ⟨pledges, hpl, rfl⟩ := hp.statement
    exact EmitLog.goodStatement h hg hvis' hp.ballots hp.ok hpl hp.log
  | remember env hn => exact h.statements
  | send env hlast hemit => exact fun bp env hmem => h.statements bp env (by simpa using hmem)
  | externalize v hphase hcommit hnone =>
    exact fun bp env hmem => h.statements bp env (by simpa using hmem)
  | receive env hin hr =>
    exact fun bp env hmem =>
      h.statements bp env ((hr.quiet.mem (by simp [Event.Quiet])).mp hmem)

/-- A process whose confirmations are visible does not die of a statement of its own. -/
theorem Crash.stating {e : Fault} (hc : Crash node (node.Accepts k) True s e t)
    (h : node.Stating k s) (hvis : node.LogVisible s.log) :
    e ≠ .badState ∧ e ≠ .nullDeref .createStatement ∧
      ∀ bp env, Event.emitCurrentStateStatement bp env ∈ t.log → node.GoodStatement bp env := by
  cases hc with
  | publish ch hg hp =>
    have hgood (hok : t.ballots.Ok) := hg.goodStatement h.rest h.sound.now h.fit hvis
      (by rwa [← hp.ballots]) hp.ballots hp.envelopes
    refine ⟨fun he => ?_, fun he => ?_, ?_⟩
    · obtain ⟨hok, pledges, hpl, hne, n, hn, hnot⟩ := hp.badState he
      obtain ⟨pledges', hpl', -, hproc⟩ := hgood hok
      rw [hp.ballots, hpl'] at hpl
      obtain rfl := Option.some.inj hpl
      exact hnot (hproc hne n (h.since.trans hn))
    · obtain ⟨hok, hnone⟩ := hp.null he
      obtain ⟨pledges, hpl, -⟩ := hgood hok
      rw [hp.ballots, hpl] at hnone
      cases hnone
    · rcases hp.log with hq | ⟨hok, pledges, hpl, hlog⟩
      · exact fun bp env hmem => h.statements bp env ((hq.mem (by simp [Event.Quiet])).mp hmem)
      · exact EmitLog.goodStatement h hg hvis hp.ballots hok hpl hlog
  | rest hphase hcommit hlog hbad hnull hinv =>
    exact ⟨hbad, hnull, fun bp env hmem =>
      h.statements bp env ((hlog.mem (by simp [Event.Quiet])).mp hmem)⟩

/-- Envelopes under the node's own name are ones it has made: the herder verifies signatures. -/
def Node.OwnSigned (node : Node) (inputs : List Input) : Prop :=
  ∀ pre env post, inputs = pre ++ .envelope env :: post → env.statement.nodeID = node.nodeID →
    ∃ bp, Event.emitCurrentStateStatement bp env ∈ (node.slotAfter pre).log

/-- An envelope that the node has made is not news to it. -/
theorem Node.Signed.not_newer {bp : BallotProtocol} {env : SCPEnvelope} (h : node.Signed s)
    (hmem : Event.emitCurrentStateStatement bp env ∈ s.log) :
    isNewerStatementFor s.mLatestEnvelopes node.nodeID env.statement = false := by
  obtain ⟨cur, hcur, hor⟩ := h bp env hmem
  rw [isNewerStatementFor, hcur, ← Bool.not_eq_true]
  rcases hor with rfl | hnewer
  · simp [isNewerStatement_irrefl]
  · intro hback
    have hloop := isNewerStatement_trans hnewer hback
    rw [isNewerStatement_irrefl] at hloop
    cases hloop

theorem signed_freshSlot : node.Signed (freshSlot node) := by
  intro bp env h
  simp [freshSlot] at h

/-! ## Runs -/

/-- Each input lets in only values that the driver rejects no more. -/
def Node.AllScreened (node : Node) (inputs : List Input) : Prop :=
  ∀ pre i post, inputs = pre ++ i :: post → node.Screened (node.slotAfter pre).log.length i

theorem Rest.mono {V' : Value → Prop} (h : Rest node V F s) (hV : ∀ v, V v → V' v) :
    Rest node V' F s :=
  ⟨h.sync, h.prime, h.announced, h.composite.imp_right (hV _), h.recorded⟩

/-- What was accepted from some time on is accepted from now on. -/
theorem Node.Stating.now (h : node.Stating k s) : node.Stating s.log.length s where
  since := le_rfl
  rest := h.rest.mono fun _ hv => hv.mono h.since
  sound := h.sound
  fit :=
    { ballots :=
        { current := fun b hb => (h.fit.ballots.current b hb).mono h.since
          prepared := fun p hp => (h.fit.ballots.prepared p hp).mono h.since
          preparedPrime := fun p' hp' => (h.fit.ballots.preparedPrime p' hp').imp_right
            fun hv => hv.mono h.since
          high := fun h' hh => (h.fit.ballots.high h' hh).mono h.since
          below := h.fit.ballots.below
          accepted := h.fit.ballots.accepted
          committed := h.fit.ballots.committed }
      others := fun n env hn henv β hβ => (h.fit.others n env hn henv β hβ).mono h.since
      started := h.fit.started }
  statements := h.statements

/-- A slot between two inputs. Its confirmations so far may have been visible or not. -/
structure Node.Between (node : Node) (s : Slot) : Prop where
  rest : Rest node (node.Accepts s.log.length) True s
  signed : node.Signed s
  stating : node.LogVisible s.log → node.Stating s.log.length s

theorem between_freshSlot : node.Between (freshSlot node) :=
  ⟨rest_freshSlot, signed_freshSlot, fun _ => stating_freshSlot⟩

/-- The inputs of such a run are fine in the slots they arrive in. -/
theorem inputOk_of_screened {inputs pre post : List Input} {i : Input}
    (hsigned : node.OwnSigned inputs) (hscreened : node.AllScreened inputs)
    (heq : inputs = pre ++ i :: post) (hrun : node.run pre = .ok () s) (hs : node.Between s) :
    InputOk node (node.Accepts s.log.length) True (fun _ => True) s i := by
  have hslot : node.slotAfter pre = s := by simp [Node.slotAfter, hrun]
  have hi := hscreened pre i post heq
  rw [hslot] at hi
  cases i with
  | envelope env =>
    refine ⟨trivial, fun _ => ⟨hi, fun hown => ?_⟩⟩
    obtain ⟨bp, hmem⟩ := hsigned pre env post heq hown
    exact hs.signed.not_newer (hslot ▸ hmem)
  | bumpState value force => exact hi
  | updatedCandidateValue value => exact hi
  | timerExpired => trivial
  | abandonBallot => trivial

/-- The driver may change its mind from one question to the next, but not about what it lets in. -/
theorem step_between {i : Input} (h : node.Between s)
    (hin : InputOk node (node.Accepts s.log.length) True (fun _ => True) s i) :
    wp (node.step i) (fun _ t => node.Between t)
      (fun e t => node.LogVisible t.log → e ≠ .badState ∧ e ≠ .nullDeref .createStatement ∧
        ∀ bp env, Event.emitCurrentStateStatement bp env ∈ t.log → node.GoodStatement bp env) s := by
  have hstep : ∀ u t, Step node (node.Accepts s.log.length) True (fun _ => True) False u t →
      node.LogVisible t.log → node.Stating s.log.length u → node.Stating s.log.length t :=
    fun _ _ => Step.stating
  have hstating {t : Slot}
      (hpath : Path node (node.Accepts s.log.length) True (fun _ => True) False s t)
      (hvis : node.LogVisible t.log) : node.Stating s.log.length t :=
    hpath.invariant_log (fun _ _ hsub hl => hl.of_subset hsub) hstep hvis
      (h.stating (hvis.of_subset hpath.log_subset))
  refine wp_mono (step_spec h.rest hin) (fun _ t ht => ?_) fun e t ht hvis => ?_
  · obtain ⟨hpath, -⟩ := ht
    refine ⟨(hpath.rest h.rest).mono fun _ hv => hv.mono hpath.log_isPrefix.length_le,
      hpath.invariant (fun _ _ => Step.signed) h.signed, fun hvis => (hstating hpath hvis).now⟩
  · obtain ⟨u, hpath, hcrash⟩ := ht
    have hvis' := hvis.of_subset hcrash.log_subset
    exact hcrash.stating (hstating hpath hvis') hvis'

/-- **No statement of the node is bad.** If every confirmed ballot shows in the statement, and no
value slips in that the driver rejects then or later, then each statement the node builds is sane
and is its recorded one or newer, and it never throws "moved to a bad state" nor meets a null
pointer in `createStatement`. -/
theorem selfStatement_of_safe (node : Node) (inputs : List Input)
    (hsigned : node.OwnSigned inputs) (hscreened : node.AllScreened inputs)
    (hvisible : node.LogVisible (node.slotAfter inputs).log) :
    node.faultAfter inputs ≠ some .badState ∧
    node.faultAfter inputs ≠ some (.nullDeref .createStatement) ∧
    ∀ bp env, Event.emitCurrentStateStatement bp env ∈ (node.slotAfter inputs).log →
      node.GoodStatement bp env := by
  have hrun : wp (runInputs node.step inputs) (fun _ t => node.Between t)
      (fun e t => node.LogVisible t.log → e ≠ .badState ∧ e ≠ .nullDeref .createStatement ∧
        ∀ bp env, Event.emitCurrentStateStatement bp env ∈ t.log → node.GoodStatement bp env)
      (freshSlot node) :=
    wp_runInputs between_freshSlot fun _ _ _ _ heq hpre hs =>
      step_between hs (inputOk_of_screened hsigned hscreened heq hpre hs)
  unfold Node.slotAfter Node.run at hvisible
  unfold Node.faultAfter Node.slotAfter Node.run
  unfold wp at hrun
  cases hend : runInputs node.step inputs (freshSlot node) with
  | ok _ s =>
    rw [hend] at hrun hvisible
    exact ⟨nofun, nofun, (hrun.stating hvisible).statements⟩
  | error e s =>
    rw [hend] at hrun hvisible
    obtain ⟨hbad, hnull, hgood⟩ := hrun hvisible
    exact ⟨fun h => hbad (Option.some.inj h), fun h => hnull (Option.some.inj h), hgood⟩

instance : Decidable (listener.Accepts 0 []) := isTrue fun _ _ h => by cases h

theorem ownSigned_runToExternalize : listener.OwnSigned runToExternalize := by
  intro pre env post heq hown
  have hmem : Input.envelope env ∈ runToExternalize := by simp [heq]
  simp only [runToExternalize, List.mem_cons, Input.envelope.injEq, reduceCtorEq, false_or,
    List.not_mem_nil, or_false] at hmem
  rcases hmem with rfl | rfl | rfl <;> cases hown

theorem selfStatement_runToExternalize :
    listener.OwnSigned runToExternalize ∧ listener.AllScreened runToExternalize ∧
    listener.LogVisible (listener.slotAfter runToExternalize).log ∧
    listener.faultAfter runToExternalize ≠ some .badState ∧
    (listener.slotAfter runToExternalize).mPhase = .EXTERNALIZE := by
  have hsigned := ownSigned_runToExternalize
  have hscreened : listener.AllScreened runToExternalize := by
    intro _ i _ _
    cases i <;> simp [Node.Screened, Node.Accepts, listener]
  have hvisible : listener.LogVisible (listener.slotAfter runToExternalize).log := by
    decide +kernel
  obtain ⟨hbad, -, -⟩ := selfStatement_of_safe listener runToExternalize hsigned hscreened hvisible
  exact ⟨hsigned, hscreened, hvisible, hbad, by decide +kernel⟩

instance (bp : BallotProtocol) (env : SCPEnvelope) : Decidable (node.GoodStatement bp env) :=
  decidable_of_iff
    (node.isStatementSane env.statement true = true ∧
      (bp.mLatestEnvelopes[node.nodeID]? = some env ∨
        isNewerStatementFor bp.mLatestEnvelopes node.nodeID env.statement = true))
    ⟨fun h => ⟨h.1, h.2⟩, fun h => ⟨h.sane, h.news⟩⟩

/-- The event emits a statement that is not good. -/
def Node.emitsBad : Event → Bool
  | .emitCurrentStateStatement bp env => !decide (node.GoodStatement bp env)
  | _ => false

/-- The listener is told of two values at counter 1, the lower one first. -/
def runToSameCounter : List Input :=
  [.bumpState [2] false,
    .envelope (fromOther (.prepare ⟨7, ⟨1, [1]⟩, some ⟨1, [1]⟩, none, 0, 0⟩)),
    .envelope (fromOther (.prepare ⟨7, ⟨1, [2]⟩, some ⟨1, [2]⟩, some ⟨1, [1]⟩, 0, 0⟩))]

/-- The listener with a driver that rejects one value, -/
def strictListener : Node :=
  { listener with
    validateValue := fun _ v => if v = [9] then .kInvalidValue else .kFullyValidatedValue }

/-- and a statement that has accepted this value as `p'`. -/
def runToRejected : List Input :=
  [.envelope (fromOther (.prepare ⟨7, ⟨1, [1]⟩, none, some ⟨1, [9]⟩, 0, 0⟩))]

/-- The listener with a driver that changes its mind: it accepts every value at first, and rejects
every value after fourteen events, -/
def fickleListener : Node :=
  { listener with
    validateValue := fun n _ => if n < 14 then .kFullyValidatedValue else .kInvalidValue }

/-- and a ballot that is given up when the timer expires. -/
def runToGivenUp : List Input :=
  [.bumpState [1] false, .envelope (fromOther (.prepare ⟨7, ⟨1, [1]⟩, none, none, 0, 0⟩))]

/-- The new `c` is all that changes in the statement, and the node throws. The driver accepts
every value in the first run; in the second a rejected value comes in as `p'`; in the third what
came in is rejected when the timer expires. -/
theorem confirmed_commit_not_newer :
    (listener.SaneInputs runToSameCounter ∧
      listener.faultAfter runToSameCounter = some .badState ∧
      ∃ bp env, Event.emitCurrentStateStatement bp env ∈
          (listener.slotAfter runToSameCounter).log ∧ ¬ listener.GoodStatement bp env) ∧
    (strictListener.SaneInputs runToRejected ∧
      strictListener.faultAfter runToRejected = some .badState) ∧
    (fickleListener.SaneInputs runToGivenUp ∧ fickleListener.faultAfter runToGivenUp = none ∧
      fickleListener.faultAfter (runToGivenUp ++ [.timerExpired]) = some .badState) := by
  refine ⟨⟨by decide +kernel, by decide +kernel, ?_⟩, ⟨by decide +kernel, by decide +kernel⟩,
    by decide +kernel, by decide +kernel, by decide +kernel⟩
  have hany : (listener.slotAfter runToSameCounter).log.any listener.emitsBad = true := by
    decide +kernel
  obtain ⟨e, hmem, he⟩ := List.any_eq_true.mp hany
  cases e with
  | emitCurrentStateStatement bp env => exact ⟨bp, env, hmem, by simpa [Node.emitsBad] using he⟩
  | _ => cases he

end SmartCore.SCP
