import SmartCore.SCP.Refinement

/-!
# The invariants of the ballot state

`checkInvariants` holds as long as every `attemptPreparedConfirmed` finds what `ConfirmSafe`
describes. All other updates keep the invariants by themselves (`Guard.ok`).

`setPreparedConfirmed` does not compare what it is given with the commit it keeps, and the scan
for the new `c` does not compare values. So it breaks the invariants when

* `c` is set and the confirmed ballot carries another value,
* there is no current ballot yet and the confirmed ballot has counter zero, or
* the run of confirmed ballots that `c` is taken from ends on another value than `h`.

The assertion then kills the process (`confirmed_prepared_breaks_invariants` is such a run).
Main result: `checkInvariants_of_confirmSafe`, over all runs.
-/

namespace SmartCore.SCP

variable {node : Node} {V : Value → Prop} {F inner : Prop} {R : SCPEnvelope → Prop} {s t : Slot}

/-! ## The condition -/

/-- What `attemptPreparedConfirmed` finds in this state fits the ballots it is put next to. -/
def Node.ConfirmSafe (node : Node) (s : BallotProtocol) (hint : SCPStatement) : Prop :=
  s.mPhase = .PREPARE → s.mPrepared ≠ none → ∀ newH, node.IsNewH s hint newH →
    (∀ c, s.mCommit = some c → c.value = newH.value) ∧
    (s.mCurrentBallot = none → newH.counter ≠ 0) ∧
    (MayCommit s newH → ∀ newC, node.IsNewC s hint newH newC → newC.counter ≠ 0 →
      newC.value = newH.value)

/-- Every call of `attemptPreparedConfirmed` in the log is safe. -/
def Node.LogSafe (node : Node) (log : List Event) : Prop :=
  ∀ bp hint, Event.attemptPreparedConfirmed bp hint ∈ log → node.ConfirmSafe bp hint

section Decidable

variable {s : BallotProtocol} {hint : SCPStatement} {newH β : SCPBallot}

instance : Decidable (node.Confirmed s hint β) :=
  inferInstanceAs (Decidable (_ ∧ _))

instance : Decidable (node.IsNewH s hint newH) :=
  decidable_of_iff
    (node.Confirmed s hint newH ∧ (∀ h ∈ s.mHighBallot, h < newH) ∧
      ∀ β ∈ candidatesDesc s.mLatestEnvelopes hint, node.Confirmed s hint β → β ≤ newH)
    ⟨fun h => ⟨h.1, h.2.1, fun β hβ => h.2.2 β (mem_candidatesDesc.mpr hβ.1) hβ⟩,
      fun h => ⟨h.confirmed, h.above, fun β _ => h.highest β⟩⟩

instance : Decidable (node.InCommitRun s hint newH β) :=
  decidable_of_iff
    (β ∈ getPrepareCandidates s.mLatestEnvelopes hint ∧ β ≤ newH ∧
      s.mCurrentBallot.getD {} ≤ β ∧
      ∀ γ ∈ candidatesDesc s.mLatestEnvelopes hint, β ≤ γ → γ ≤ newH →
        node.Confirmed s hint γ)
    ⟨fun h => ⟨h.1, h.2.1, h.2.2.1, fun γ hγ => h.2.2.2 γ (mem_candidatesDesc.mpr hγ)⟩,
      fun h => ⟨h.candidate, h.le_newH, h.current_le,
        fun γ hγ => h.confirmed γ (mem_candidatesDesc.mp hγ)⟩⟩

instance : Decidable (node.IsNewC s hint newH β) :=
  decidable_of_iff
    (node.InCommitRun s hint newH β ∧
      ∀ γ ∈ candidatesDesc s.mLatestEnvelopes hint, node.InCommitRun s hint newH γ → β ≤ γ)
    ⟨fun h => ⟨h.1, fun γ hγ => h.2 γ (mem_candidatesDesc.mpr hγ.candidate) hγ⟩,
      fun h => ⟨h.inRun, fun γ _ => h.lowest γ⟩⟩

instance : Decidable (MayCommit s newH) :=
  decidable_of_iff
    (s.mCommit = none ∧ (∀ p ∈ s.mPrepared, ¬ (newH ≤ p ∧ newH.value ≠ p.value)) ∧
      ∀ p' ∈ s.mPreparedPrime, ¬ (newH ≤ p' ∧ newH.value ≠ p'.value))
    ⟨fun h => ⟨h.1, h.2.1, h.2.2⟩, fun h => ⟨h.commit, h.prepared, h.preparedPrime⟩⟩

instance : Decidable (node.ConfirmSafe s hint) :=
  decidable_of_iff
    (s.mPhase = .PREPARE → s.mPrepared ≠ none →
      ∀ newH ∈ candidatesDesc s.mLatestEnvelopes hint, node.IsNewH s hint newH →
        (∀ c ∈ s.mCommit, c.value = newH.value) ∧
        (s.mCurrentBallot = none → newH.counter ≠ 0) ∧
        (MayCommit s newH → ∀ newC ∈ candidatesDesc s.mLatestEnvelopes hint,
          node.IsNewC s hint newH newC → newC.counter ≠ 0 → newC.value = newH.value))
    ⟨fun h hp hpr newH hnew => by
      obtain ⟨hc, h0, hC⟩ := h hp hpr newH (mem_candidatesDesc.mpr hnew.confirmed.1) hnew
      exact ⟨hc, h0, fun hmay newC hnC => hC hmay newC (mem_candidatesDesc.mpr hnC.inRun.1) hnC⟩,
    fun h hp hpr newH _ hnew => by
      obtain ⟨hc, h0, hC⟩ := h hp hpr newH hnew
      exact ⟨hc, h0, fun hmay newC _ => hC hmay newC⟩⟩

instance (log : List Event) : Decidable (node.LogSafe log) :=
  decidable_of_iff
    ((log.all fun
      | .attemptPreparedConfirmed bp hint => decide (node.ConfirmSafe bp hint)
      | _ => true) = true)
    ⟨fun h bp hint hmem => by simpa using List.all_eq_true.mp h _ hmem,
      fun h => List.all_eq_true.mpr fun e hmem => by
        cases e <;> first | exact decide_eq_true (h _ _ hmem) | rfl⟩

end Decidable

/-! ## Changes keep the invariants -/

theorem Ballots.Ok.acceptPrepared {ballot : SCPBallot} (h : s.ballots.Ok)
    (hg : Guard node V F s (.acceptPrepared ballot)) (hprime : s.ballots.PrimeBelow) :
    (Change.apply (.acceptPrepared ballot) s.ballots).Ok where
  counter_ne := h.counter_ne
  prime p p' hp hp' := by
    obtain ⟨q, hq, hle, hne⟩ := hg.primeBelow hprime p' hp'
    obtain rfl : q = p := Option.some.inj (hq.symm.trans hp)
    exact ⟨hle, hne⟩
  commit c hc := by
    simp only [Change.apply] at hc
    split_ifs at hc
    exact h.commit c hc
  committed hphase := by
    rw [hg.2.2.2.2.2 hphase]
    exact h.committed hphase

theorem Ballots.Ok.confirmPrepared {newC newH : SCPBallot} (h : s.ballots.Ok)
    (hg : Guard node V F s (.confirmPrepared newC newH)) (hsafe : node.LogSafe s.log) :
    (Change.apply (.confirmPrepared newC newH) s.ballots).Ok := by
  obtain ⟨hphase, hprep, ⟨hint, hev, hnewH, hnewC⟩, -⟩ := hg
  obtain ⟨hsafeA, hsafeB, hsafeC⟩ := hsafe _ _ hev hphase hprep newH hnewH
  refine ⟨fun b hb => ?_, h.prime, fun c hc => ?_, fun hne => absurd hphase hne⟩
  · rcases raiseTo_cases s.mCurrentBallot newH with ⟨heq, hlt⟩ | ⟨b₀, hb₀, -, heq⟩
    · obtain rfl : newH = b := Option.some.inj (heq.symm.trans hb)
      cases hcur : s.mCurrentBallot with
      | none => exact hsafeB hcur
      | some b₀ =>
        have hpos := h.counter_ne b₀ hcur
        have hle := SCPBallot.counter_le (hlt b₀ hcur).le
        intro h0
        rw [h0] at hle
        exact hpos (Fin.le_zero_iff.mp hle)
    · exact h.counter_ne b (heq.symm.trans hb)
  · refine ⟨newH, ?_⟩
    simp only [Change.apply, ballots_c] at hc ⊢
    split_ifs at hc with hne
    · -- a new `c` from the run that ends in `newH`
      obtain rfl : newC = c := Option.some.inj hc
      obtain ⟨hmay, hisC⟩ := hnewC hne
      have hv := hsafeC hmay newC hisC hne
      have hle := hisC.inRun.le_newH
      rcases raiseTo_cases s.mCurrentBallot newH with ⟨heq, -⟩ | ⟨b, hb, hle', heq⟩
      · exact ⟨newH, trivial, heq, ⟨hle, hv⟩, le_rfl, rfl⟩
      · have hbC : b ≤ newC := by simpa [hb] using hisC.inRun.current_le
        obtain rfl : newH = b := le_antisymm hle' (hbC.trans hle)
        exact ⟨newH, trivial, heq.trans hb, ⟨hle, hv⟩, le_rfl, rfl⟩
    · -- the old `c`, below the old `h`
      obtain ⟨h₀, b, hh₀, hb, ⟨hch, hcv⟩, hhb, hbv⟩ := h.commit c hc
      have hv := hsafeA c hc
      have hlt := hnewH.above h₀ hh₀
      rcases raiseTo_cases s.mCurrentBallot newH with ⟨heq, -⟩ | ⟨b', hb', hle', heq⟩
      · exact ⟨newH, trivial, heq, ⟨hch.trans hlt.le, hv⟩, le_rfl, rfl⟩
      · obtain rfl : b = b' := Option.some.inj (hb.symm.trans hb')
        exact ⟨b, trivial, heq.trans hb, ⟨hch.trans hlt.le, hv⟩, hle',
          hv.symm.trans (hcv.trans hbv)⟩

/-- Raising a ballot that is absent, or compatible with `h` when it is not below. -/
theorem raiseTo_ok {b : Option SCPBallot} {h : SCPBallot}
    (hcompat : ∀ b₀, b = some b₀ → h ≤ b₀ → h.value = b₀.value) :
    ∃ b', raiseTo b h = some b' ∧ h ≤ b' ∧ h.value = b'.value := by
  rcases raiseTo_cases b h with ⟨heq, -⟩ | ⟨b₀, hb₀, hle, heq⟩
  · exact ⟨h, heq, le_rfl, rfl⟩
  · exact ⟨b₀, heq.trans hb₀, hle, hcompat b₀ hb₀ hle⟩

/-- Ballots with `c ≤ h ≤ b`, all compatible, and `c` above zero. -/
theorem Ballots.Ok.of_commit {x : Ballots} {c h b : SCPBallot} (hc : x.c = some c)
    (hh : x.h = some h) (hb : x.b = some b) (hne : c.counter ≠ 0) (hle : c.counter ≤ h.counter)
    (hv : c.value = h.value) (hhb : h ≤ b) (hbv : h.value = b.value)
    (hprime : x.PrimeBelow) : x.Ok where
  counter_ne b' hb' := by
    obtain rfl : b = b' := Option.some.inj (hb.symm.trans hb')
    intro h0
    have := hle.trans (SCPBallot.counter_le hhb)
    rw [h0] at this
    exact hne (Fin.le_zero_iff.mp this)
  prime p p' hp hp' := by
    obtain ⟨q, hq, hle, hne⟩ := hprime p' hp'
    obtain rfl : q = p := Option.some.inj (hq.symm.trans hp)
    exact ⟨hle, hne⟩
  commit c' hc' := by
    obtain rfl : c = c' := Option.some.inj (hc.symm.trans hc')
    exact ⟨h, b, hh, hb, ⟨SCPBallot.le_of_counter_le hv hle, hv⟩, hhb, hbv⟩
  committed _ := by rw [hc]; simp

theorem Ballots.Ok.acceptCommit {c h : SCPBallot} (hok : s.ballots.Ok)
    (hg : Guard node V F s (.acceptCommit c h)) (hprime : s.ballots.PrimeBelow) :
    (Change.apply (.acceptCommit c h) s.ballots).Ok := by
  have hprime' := hg.primeBelow hprime
  obtain ⟨hext, hne, hle, hv, hconf, -⟩ := hg
  by_cases hphase : s.mPhase = .PREPARE
  · have hcompat : ∀ b₀, alignTo s.mCurrentBallot h = some b₀ → h ≤ b₀ → h.value = b₀.value := by
      intro b₀ hb₀ _
      unfold alignTo at hb₀
      split_ifs at hb₀ with hany
      · obtain rfl := Option.some.inj hb₀
        rfl
      · rw [hb₀] at hany
        simp only [Option.any_some, Bool.not_eq_true', Bool.not_eq_false,
          areBallotsLessAndCompatible_iff] at hany
        exact hany.2
    obtain ⟨b, hb, hhb, hbv⟩ := raiseTo_ok hcompat
    refine Ballots.Ok.of_commit (c := c) (h := h) (b := b) ?_ ?_ ?_ hne hle hv hhb hbv hprime' <;>
      simp [Change.apply, hphase, hb]
  · have hph : s.mPhase = .CONFIRM := by
      cases hph : s.mPhase <;> simp_all
    obtain ⟨h₀, hh₀, hv₀, -⟩ := hconf hph
    obtain ⟨c₀, hc₀⟩ := Option.ne_none_iff_exists'.mp (hok.committed hphase)
    obtain ⟨h₁, b₁, hh₁, hb₁, -, -, hbv₁⟩ := hok.commit c₀ hc₀
    obtain rfl : h₀ = h₁ := Option.some.inj (hh₀.symm.trans hh₁)
    obtain ⟨b, hb, hhb, hbv⟩ := raiseTo_ok (b := s.mCurrentBallot) (h := h) fun b₀ hb₀ _ => by
      obtain rfl : b₁ = b₀ := Option.some.inj (hb₁.symm.trans hb₀)
      exact hv₀.symm.trans hbv₁
    refine Ballots.Ok.of_commit (c := c) (h := h) (b := b) ?_ ?_ ?_ hne hle hv hhb hbv hprime' <;>
      simp [Change.apply, hph, hb]

theorem Ballots.Ok.confirmCommit {c h : SCPBallot} (hok : s.ballots.Ok)
    (hg : Guard node V F s (.confirmCommit c h)) (hprime : s.ballots.PrimeBelow) :
    (Change.apply (.confirmCommit c h) s.ballots).Ok := by
  have hprime' := hg.primeBelow hprime
  obtain ⟨hphase, hne, hle, hv, ⟨c₀, h₀, hc₀, hh₀, hcv⟩, -⟩ := hg
  obtain ⟨h₁, b₁, hh₁, hb₁, ⟨-, hv₁⟩, -, hbv₁⟩ := hok.commit c₀ hc₀
  obtain ⟨b, hb, hhb, hbv⟩ := raiseTo_ok (b := s.mCurrentBallot) (h := h) fun b₀ hb₀ _ => by
    obtain rfl : b₁ = b₀ := Option.some.inj (hb₁.symm.trans hb₀)
    rw [← hv, ← hcv, hv₁, hbv₁]
  refine Ballots.Ok.of_commit (c := c) (h := h) (b := b) ?_ ?_ ?_ hne hle hv hhb hbv hprime' <;>
    simp [Change.apply, hb]

theorem Ballots.Ok.bump {newb : SCPBallot} (hok : s.ballots.Ok)
    (hg : Guard node V F s (.bump newb)) : (Change.apply (.bump newb) s.ballots).Ok := by
  obtain ⟨-, hne, hlt, hc, hh, -⟩ := hg
  refine ⟨fun b hb => ?_, hok.prime, fun c hc' => ?_, hok.committed⟩
  · obtain rfl : newb = b := Option.some.inj hb
    exact hne
  · obtain ⟨h, b, hh', hb, hch, hhb, hbv⟩ := hok.commit c hc'
    exact ⟨h, newb, hh', rfl, hch, hhb.trans (hlt b hb).le, (hh h hh').symm⟩

/-- Every change keeps the invariants, a confirmation under the condition. -/
theorem Guard.ok {ch : Change} (hg : Guard node V F s ch) (hok : s.ballots.Ok)
    (hprime : s.ballots.PrimeBelow) (hsafe : node.LogSafe s.log) : (ch.apply s.ballots).Ok := by
  cases ch with
  | acceptPrepared ballot => exact hok.acceptPrepared hg hprime
  | confirmPrepared newC newH => exact hok.confirmPrepared hg hsafe
  | acceptCommit c h => exact hok.acceptCommit hg hprime
  | confirmCommit c h => exact hok.confirmCommit hg hprime
  | bump newb => exact hok.bump hg

/-! ## Runs -/

/-- The invariants hold now, and held at each emission so far. -/
structure Sound (s : Slot) : Prop where
  now : s.ballots.Ok
  emissions : ∀ bp env, Event.emitCurrentStateStatement bp env ∈ s.log → bp.ballots.Ok

/-- A property that every step keeps while the log is fine holds along every path that ends with
such a log. -/
theorem Path.invariant_log {P : Slot → Prop} {S : List Event → Prop}
    (hmono : ∀ l l', l ⊆ l' → S l' → S l)
    (hstep : ∀ s t, Step node V F R inner s t → S t.log → P s → P t)
    (h : Path node V F R inner s t) (hS : S t.log) (hs : P s) : P t := by
  induction h with
  | refl => exact hs
  | tail _ hst ih => exact hstep _ _ hst hS (ih (hmono _ _ hst.log_subset hS))

theorem Node.LogSafe.of_subset {l l' : List Event} (h : node.LogSafe l') (hsub : l ⊆ l') :
    node.LogSafe l := fun bp hint hmem => h bp hint (hsub hmem)

theorem Step.ok (hst : Step node V F R inner s t) (h : s.ballots.Ok) : t.ballots.Ok := by
  rcases hst.ballots_eq with heq | ⟨ch, env, -, hp⟩
  · rwa [heq]
  · exact hp.ok

/-- A slot that goes on has passed `checkInvariants`. -/
theorem Step.sound (hst : Step node V F R inner s t) (h : Sound s) : Sound t := by
  refine ⟨hst.ok h.now, fun bp env hmem => ?_⟩
  rcases hst.emission hmem with hold | ⟨ch, -, hp, hbp⟩
  · exact h.emissions bp env hold
  · rw [hbp]
    exact hp.ok

theorem sound_freshSlot : Sound (freshSlot node) where
  now := ⟨by simp [freshSlot], by simp [freshSlot], by simp [freshSlot], by simp [freshSlot]⟩
  emissions := by simp [freshSlot]

theorem Crash.log_isPrefix {e : Fault} (hc : Crash node V F s e t) : s.log <+: t.log := by
  cases hc with
  | publish ch hg hp =>
    rcases hp.log with hq | ⟨-, _, -, hlog⟩
    · exact hq.isPrefix
    · exact hlog.log_isPrefix
  | rest hphase hcommit hlog hbad hnull hinv => exact hlog.isPrefix

theorem Crash.log_subset {e : Fault} (hc : Crash node V F s e t) : s.log ⊆ t.log :=
  hc.log_isPrefix.subset

/-- A process that dies has emitted at most what it was publishing. -/
theorem Crash.emission {e : Fault} (hc : Crash node V F s e t) {bp : BallotProtocol}
    {env : SCPEnvelope} (hmem : Event.emitCurrentStateStatement bp env ∈ t.log) :
    Event.emitCurrentStateStatement bp env ∈ s.log ∨ ∃ ch pledges, Guard node V F s ch ∧
      t.ballots = ch.apply s.ballots ∧ t.ballots.Ok ∧ node.pledgesOf t.ballots = some pledges ∧
        bp.ballots = t.ballots := by
  cases hc with
  | publish ch hg hp =>
    rcases hp.log with hq | ⟨hok, pledges, hpl, hlog⟩
    · exact Or.inl ((hq.mem (by simp [Event.Quiet])).mp hmem)
    · rcases (hlog.mem (by simp [Event.Quiet])).mp hmem with hold | ⟨bp', hbp, -, heq, -⟩
      · exact Or.inl hold
      · obtain ⟨rfl, -⟩ := Event.emitCurrentStateStatement.inj heq
        exact Or.inr ⟨ch, pledges, hg, hp.ballots, hok, hpl, hbp⟩
  | rest hphase hcommit hlog hbad hnull hinv =>
    exact Or.inl ((hlog.mem (by simp [Event.Quiet])).mp hmem)

/-- The emissions a process has made up to its death passed the invariants. -/
theorem Crash.emissions {e : Fault} (hc : Crash node V F s e t) (h : Sound s) :
    ∀ bp env, Event.emitCurrentStateStatement bp env ∈ t.log → bp.ballots.Ok := by
  intro bp env hmem
  rcases hc.emission hmem with hold | ⟨ch, pledges, -, -, hok, -, hbp⟩
  · exact h.emissions bp env hold
  · rw [hbp]
    exact hok

/-- A process that follows the protocol never dies of its invariants, if its confirmations are
safe. -/
theorem Crash.sound {e : Fault} (hc : Crash node V F s e t) (hrest : Rest node V F s)
    (h : Sound s) (hsafe : node.LogSafe t.log) :
    e ≠ .checkInvariants ∧
      ∀ bp env, Event.emitCurrentStateStatement bp env ∈ t.log → bp.ballots.Ok := by
  refine ⟨fun he => ?_, hc.emissions h⟩
  have hsafe' := hsafe.of_subset hc.log_subset
  cases hc with
  | publish ch hg hp =>
    apply hp.checkInvariants he
    rw [hp.ballots]
    exact hg.ok h.now hrest.prime hsafe'
  | rest hphase hcommit hlog hbad hnull hinv => exact hinv he h.now

/-- `checkInvariants` has not killed the process, holds now if the process is alive, and held
at every emission. -/
structure Node.InvariantsHold (node : Node) (inputs : List Input) : Prop where
  alive : node.faultAfter inputs ≠ some .checkInvariants
  now : node.faultAfter inputs = none →
    checkInvariants (node.slotAfter inputs).toBallotProtocol = true
  emissions : ∀ bp env, Event.emitCurrentStateStatement bp env ∈ (node.slotAfter inputs).log →
    checkInvariants bp = true

/-- **The invariants hold over every run whose confirmations are safe.** The inputs are
arbitrary: any envelopes of any nodes, bumps and timer events, in any order. -/
theorem checkInvariants_of_confirmSafe (node : Node) (inputs : List Input)
    (hsafe : node.LogSafe (node.slotAfter inputs).log) : node.InvariantsHold inputs := by
  rcases run_spec_any node inputs with ⟨hnone, hpath⟩ | ⟨e, he, u, hpath, hcrash⟩
  · have hsound := hpath.invariant (fun _ _ => Step.sound) sound_freshSlot
    refine ⟨by simp [hnone], fun _ => checkInvariants_iff.mpr hsound.now, fun bp env hmem => ?_⟩
    exact checkInvariants_iff.mpr (hsound.emissions bp env hmem)
  · have hsound := hpath.invariant (fun _ _ => Step.sound) sound_freshSlot
    obtain ⟨hne, hemit⟩ := hcrash.sound (hpath.rest rest_freshSlot) hsound hsafe
    refine ⟨by simp [he, hne], by simp [he], fun bp env hmem => ?_⟩
    exact checkInvariants_iff.mpr (hemit bp env hmem)

/-! ## A node with one validator to listen to -/

/-- Node 0 listens to node 1 only. Every value is fine to it. -/
def listener : Node where
  nodeID := 0
  isValidator := true
  qSet := .mk 1 [1] []
  qSetHash := 7
  slotIndex := 0
  getQSet h := if h = 7 then some (.mk 1 [1] []) else none
  validateValue _ _ := .kFullyValidatedValue
  signEnvelope _ := 0
  qSet_sane := by decide
  getQSet_qSetHash := rfl

/-- An envelope of node 1 that the listener takes for sane. -/
def fromOther (pledges : Pledges) : SCPEnvelope := ⟨⟨1, 0, pledges⟩, 0⟩

/-- A run to `EXTERNALIZE`, with a confirmed ballot on the way. -/
def runToExternalize : List Input :=
  [.bumpState [1] false,
    .envelope (fromOther (.prepare ⟨7, ⟨1, [1]⟩, some ⟨1, [1]⟩, none, 0, 0⟩)),
    .envelope (fromOther (.prepare ⟨7, ⟨1, [1]⟩, some ⟨1, [1]⟩, none, 1, 1⟩)),
    .envelope (fromOther (.confirm ⟨⟨1, [1]⟩, 1, 1, 1, 7⟩))]

theorem checkInvariants_runToExternalize :
    listener.LogSafe (listener.slotAfter runToExternalize).log ∧
      listener.InvariantsHold runToExternalize ∧
      (listener.slotAfter runToExternalize).mPhase = .EXTERNALIZE :=
  have hsafe : listener.LogSafe (listener.slotAfter runToExternalize).log := by decide +kernel
  ⟨hsafe, checkInvariants_of_confirmSafe listener runToExternalize hsafe, by decide +kernel⟩

/-- The other node has prepared the value the listener votes to commit, and then a higher ballot
with another value. -/
def runToIncompatible : List Input :=
  [.bumpState [1] false,
    .envelope (fromOther (.prepare ⟨7, ⟨2, [1]⟩, some ⟨2, [1]⟩, none, 0, 0⟩)),
    .envelope (fromOther (.prepare ⟨7, ⟨5, [1]⟩, some ⟨3, [2]⟩, none, 0, 0⟩))]

/-- Every envelope among the inputs is sane for the node. -/
def Node.SaneInputs (node : Node) (inputs : List Input) : Prop :=
  ∀ env, .envelope env ∈ inputs → node.isStatementSane env.statement false = true

instance (inputs : List Input) : Decidable (node.SaneInputs inputs) :=
  decidable_of_iff
    ((inputs.all fun
      | .envelope env => node.isStatementSane env.statement false
      | _ => true) = true)
    ⟨fun h env hmem => List.all_eq_true.mp h _ hmem,
      fun h => List.all_eq_true.mpr fun i hmem => by
        cases i <;> first | exact h _ hmem | rfl⟩

/-- The commit is kept next to an incompatible `h`, and the assertion fires. -/
theorem confirmed_prepared_breaks_invariants :
    listener.SaneInputs runToIncompatible ∧ ¬ listener.InvariantsHold runToIncompatible :=
  ⟨by decide +kernel, fun h => h.alive (by decide +kernel)⟩

end SmartCore.SCP
