import Mathlib.Data.List.Chain
import SmartCore.SCP.Invariants
import SmartCore.SCP.Order

/-!
# What only moves forward

Over a whole run the phase and the prepared ballot never go back, and from `CONFIRM` on the value
is fixed. The high ballot does go back: entering `CONFIRM` or `EXTERNALIZE` replaces it by the top
of the interval that was accepted or confirmed, which can be lower than a ballot already confirmed
as prepared (`high_goes_back` is such a run). Inside a phase it never does.

A run is looked at through its `trace`: the fresh ballots, followed by the ballots at each emission.
Every change of the ballots is followed by one, so two neighbours of the trace are one change apart.

Main result: `run_monotone`.
-/

namespace SmartCore.SCP

variable {node : Node} {V : Value → Prop} {F inner : Prop} {R : SCPEnvelope → Prop} {s t : Slot}

/-! ## One change -/

/-- `y` is present and not below `x`, if `x` is present. -/
def NotBelow (x y : Option SCPBallot) : Prop :=
  ∀ b, x = some b → ∃ b', y = some b' ∧ b ≤ b'

instance (x y : Option SCPBallot) : Decidable (NotBelow x y) :=
  decidable_of_iff ((x.all fun b => y.any fun b' => decide (b ≤ b')) = true) <| by
    cases x <;> cases y <;> simp [NotBelow]

theorem NotBelow.refl (x : Option SCPBallot) : NotBelow x x := fun b h => ⟨b, h, le_rfl⟩

theorem notBelow_raiseTo (b : Option SCPBallot) (h : SCPBallot) : NotBelow b (raiseTo b h) := by
  intro b₀ hb₀
  rcases raiseTo_cases b h with ⟨heq, hlt⟩ | ⟨b₁, -, -, heq⟩
  · exact ⟨h, heq, (hlt b₀ hb₀).le⟩
  · exact ⟨b₀, heq.trans hb₀, le_rfl⟩

/-- How the ballots may move from `x` to `y`. -/
structure Ballots.Advance (x y : Ballots) : Prop where
  phase : x.phase.toNat ≤ y.phase.toNat
  prepared : NotBelow x.p y.p
  high : y.phase = x.phase → NotBelow x.h y.h
  locked : x.phase ≠ .PREPARE →
    y.c.map SCPBallot.value = x.c.map SCPBallot.value ∧
    y.h.map SCPBallot.value = x.h.map SCPBallot.value
  current : (x.phase = .PREPARE → y.phase = .PREPARE) → NotBelow x.b y.b

/-- From `CONFIRM` on there is a commit, and `h` has its value. -/
theorem Ballots.Ok.high_value {x : Ballots} (h : x.Ok) (hphase : x.phase ≠ .PREPARE) :
    ∃ c h, x.c = some c ∧ x.h = some h ∧ c.value = h.value := by
  obtain ⟨c, hc⟩ := Option.ne_none_iff_exists'.mp (h.committed hphase)
  obtain ⟨h', -, hh, -, ⟨-, hv⟩, -⟩ := h.commit c hc
  exact ⟨c, h', hc, hh, hv⟩

/-- Ballots whose commit part and phase are kept advance with `p`, `h` and `b`. -/
theorem Ballots.Advance.of_kept {x y : Ballots} (hphase : y.phase = x.phase)
    (hp : NotBelow x.p y.p) (hh : NotBelow x.h y.h) (hb : NotBelow x.b y.b)
    (hlocked : x.phase ≠ .PREPARE →
      y.c.map SCPBallot.value = x.c.map SCPBallot.value ∧
      y.h.map SCPBallot.value = x.h.map SCPBallot.value) : x.Advance y :=
  ⟨by rw [hphase], hp, fun _ => hh, hlocked, fun _ => hb⟩

/-- Every change advances the ballots. -/
theorem Guard.advance {ch : Change} (hg : Guard node V F s ch) (hok : s.ballots.Ok) :
    s.ballots.Advance (ch.apply s.ballots) := by
  have hp : NotBelow s.mPrepared (ch.apply s.ballots).p := fun _ => hg.prepared_le
  cases ch with
  | acceptPrepared ballot =>
    refine .of_kept rfl hp (NotBelow.refl _) (NotBelow.refl _) fun hphase => ⟨?_, rfl⟩
    rw [hg.2.2.2.2.2 hphase]
    rfl
  | confirmPrepared newC newH =>
    obtain ⟨hphase, -, ⟨hint, -, hnewH, -⟩, -⟩ := hg
    refine .of_kept rfl hp (fun h hh => ?_) (notBelow_raiseTo _ _) fun hne => absurd hphase hne
    exact ⟨newH, rfl, (hnewH.above h hh).le⟩
  | acceptCommit c h =>
    obtain ⟨hext, -, -, hv, hconf, -⟩ := hg
    by_cases hphase : s.mPhase = .PREPARE
    · -- entering `CONFIRM`: nothing is said about `h` and `b`
      refine ⟨?_, hp, fun heq => ?_, fun hne => absurd hphase hne, fun hpp => ?_⟩
      · simp [hphase, Phase.toNat]
      · simp [Change.apply, hphase] at heq
      · simp [Change.apply, hphase] at hpp
    · have hph : s.mPhase = .CONFIRM := by
        cases hph : s.mPhase <;> simp_all
      obtain ⟨h₀, hh₀, hv₀, hlt⟩ := hconf hph
      obtain ⟨c₁, h₁, hc₁, hh₁, hcv⟩ := hok.high_value hphase
      obtain rfl : h₀ = h₁ := Option.some.inj (hh₀.symm.trans hh₁)
      rw [Change.apply_acceptCommit_confirm hphase] at hp ⊢
      refine .of_kept rfl hp (fun h' hh' => ?_) (notBelow_raiseTo _ _) fun _ => ⟨?_, ?_⟩
      · obtain rfl : h₀ = h' := Option.some.inj (hh₀.symm.trans hh')
        exact ⟨h, rfl, SCPBallot.le_of_counter_le hv₀ hlt.le⟩
      · rw [hc₁, Option.map_some, Option.map_some, hv, ← hv₀, hcv]
      · rw [hh₁, Option.map_some, Option.map_some, hv₀]
  | confirmCommit c h =>
    obtain ⟨hphase, -, -, hv, ⟨c₀, h₀, hc₀, hh₀, hcv⟩, -⟩ := hg
    obtain ⟨c₁, h₁, hc₁, hh₁, hv₁⟩ := hok.high_value (by simp [hphase])
    obtain rfl : c₀ = c₁ := Option.some.inj (hc₀.symm.trans hc₁)
    refine ⟨?_, hp, fun heq => ?_, fun _ => ⟨?_, ?_⟩, fun _ => notBelow_raiseTo _ _⟩
    · simp [Change.apply, hphase, Phase.toNat]
    · simp [Change.apply, hphase] at heq
    · simp only [Change.apply, hc₁, Option.map_some, hcv]
    · simp only [Change.apply, hh₁, Option.map_some, ← hv, ← hcv, hv₁]
  | bump newb =>
    obtain ⟨-, -, hlt, -⟩ := hg
    refine .of_kept rfl hp (NotBelow.refl _) (fun b hb => ?_) fun _ => ⟨rfl, rfl⟩
    exact ⟨newb, rfl, (hlt b hb).le⟩

/-! ## Whole runs -/

/-- The fresh ballots and the ballots at each emission. -/
def trace (log : List Event) : List Ballots := {} :: snapshots log

/-- What every run keeps: its trace advances and ends in the current ballots, what it has sent is
older than what it would send next, and it has announced one value at most. -/
structure Forward (s : Slot) : Prop where
  chain : (trace s.log).IsChain Ballots.Advance
  last : (trace s.log).getLast? = some s.ballots
  sent : (emitted s.log).Pairwise fun a b => isNewerStatement a.statement b.statement = true
  unsent : ∀ e ∈ emitted s.log, ∃ last, s.mLastEnvelope = some last ∧
    ((e = last ∧ s.mLastEnvelopeEmit = some last) ∨
      isNewerStatement e.statement last.statement = true)
  announced : (externalized s.log).length ≤ 1

theorem forward_freshSlot : Forward (freshSlot node) where
  chain := List.isChain_singleton _
  last := rfl
  sent := List.Pairwise.nil
  unsent e h := by cases h
  announced := by simp [freshSlot, externalized]

/-- A step that changes no ballots and remembers and sends no statement. -/
theorem Forward.of_same (h : Forward s) (hb : t.ballots = s.ballots)
    (hlast : t.mLastEnvelope = s.mLastEnvelope)
    (hemit : t.mLastEnvelopeEmit = s.mLastEnvelopeEmit)
    (hsnap : snapshots t.log = snapshots s.log) (hemitted : emitted t.log = emitted s.log)
    (hann : (externalized t.log).length ≤ 1) : Forward t where
  chain := by rw [trace, hsnap]; exact h.chain
  last := by rw [trace, hsnap, hb]; exact h.last
  sent := by rw [hemitted]; exact h.sent
  unsent := by rw [hemitted, hlast, hemit]; exact h.unsent
  announced := hann

/-- A trace that advances by one more change. -/
theorem isChain_snapshots {env : SCPEnvelope} (h : Forward s) (hlog : EmitLog s t env)
    (hadv : s.ballots.Advance t.ballots) :
    (trace t.log).IsChain Ballots.Advance ∧ (trace t.log).getLast? = some t.ballots := by
  have htrace : trace t.log = trace s.log ++ [t.ballots] := by
    simp only [trace, hlog.snapshots, List.cons_append]
  rw [htrace]
  refine ⟨List.isChain_append.mpr ⟨h.chain, List.isChain_singleton _, fun x hx y hy => ?_⟩, ?_⟩
  · obtain rfl : s.ballots = x := Option.some.inj (h.last.symm.trans hx)
    obtain rfl : t.ballots = y := Option.some.inj hy
    exact hadv
  · simp

theorem Step.forward (hst : Step node V F R inner s t) (hs : Sound s) (h : Forward s) :
    Forward t := by
  cases hst with
  | quiet hq =>
    refine h.of_same hq.ballots hq.last hq.lastEmit (snapshots_quiet hq.log)
      (emitted_quiet hq.log) ?_
    rw [externalized_quiet hq.log]
    exact h.announced
  | probe hint =>
    exact h.of_same rfl rfl rfl (by simp [snapshots]) (by simp [emitted])
      (by simpa [externalized] using h.announced)
  | publish ch env hbump hg hp =>
    obtain ⟨hchain, hlast⟩ := isChain_snapshots h hp.log (by
      rw [hp.ballots]
      exact hg.advance hs.now)
    refine ⟨hchain, hlast, ?_, ?_, ?_⟩
    · rw [hp.log.emitted]
      exact h.sent
    · rw [hp.log.emitted, hp.last, hp.lastEmit]
      exact h.unsent
    · rw [hp.log.externalized]
      exact h.announced
  | remember env hn =>
    refine ⟨h.chain, h.last, h.sent, fun e he => ?_, h.announced⟩
    obtain ⟨last, hlast, hor⟩ := h.unsent e he
    refine ⟨env, rfl, Or.inr ?_⟩
    rcases hor with ⟨rfl, -⟩ | hnew
    · exact hn e hlast
    · exact isNewerStatement_trans hnew (hn last hlast)
  | send env hlast hemit =>
    have hlog : emitted (Slot.logging { s with mLastEnvelopeEmit := some env }
        (.emitEnvelope env)).log = emitted s.log ++ [env] := by simp [emitted]
    have hnewer : ∀ e ∈ emitted s.log, isNewerStatement e.statement env.statement = true := by
      intro e he
      obtain ⟨last, hlast', hor⟩ := h.unsent e he
      obtain rfl : env = last := Option.some.inj (hlast.symm.trans hlast')
      rcases hor with ⟨-, hsent⟩ | hnew
      · exact absurd hsent hemit
      · exact hnew
    refine ⟨by simpa [trace, snapshots] using h.chain, ?_, ?_, ?_,
      by simpa [externalized] using h.announced⟩
    · have : trace (Slot.logging { s with mLastEnvelopeEmit := some env } (.emitEnvelope env)).log =
          trace s.log := by simp [trace, snapshots]
      rw [this]
      exact h.last
    · rw [hlog, List.pairwise_append]
      refine ⟨h.sent, List.pairwise_singleton _ _, fun e he e' he' => ?_⟩
      obtain rfl := List.mem_singleton.mp he'
      exact hnewer e he
    · intro e he
      rw [hlog] at he
      refine ⟨env, hlast, ?_⟩
      rcases List.mem_append.mp he with he | he
      · exact Or.inr (hnewer e he)
      · exact Or.inl ⟨List.mem_singleton.mp he, rfl⟩
  | externalize v hphase hcommit hnone =>
    refine h.of_same rfl rfl rfl (by simp [snapshots]) (by simp [emitted]) ?_
    have : externalized (s.logging (.valueExternalized v)).log = externalized s.log ++ [v] := by
      simp [externalized]
    rw [this, hnone]
    simp
  | receive env hin hr =>
    refine h.of_same hr.ballots hr.last hr.lastEmit (snapshots_quiet hr.quiet)
      (emitted_quiet hr.quiet) ?_
    rw [externalized_quiet hr.quiet]
    exact h.announced

theorem Path.forward (h : Path node V F R inner s t) (hs : Sound s ∧ Forward s) :
    Sound t ∧ Forward t :=
  h.invariant (P := fun s => Sound s ∧ Forward s)
    (fun _ _ hst hs => ⟨hst.sound hs.1, hst.forward hs.1 hs.2⟩) hs

/-- A process that dies has advanced up to its last emission, and sent nothing more. -/
theorem Crash.forward {e : Fault} (hc : Crash node V F s e t) (hs : Sound s) (h : Forward s) :
    (trace t.log).IsChain Ballots.Advance ∧ emitted t.log = emitted s.log ∧
      externalized t.log = externalized s.log := by
  cases hc with
  | publish ch hg hp =>
    rcases hp.log with hq | ⟨-, _, -, hlog⟩
    · refine ⟨?_, emitted_quiet hq, externalized_quiet hq⟩
      rw [trace, snapshots_quiet hq]
      exact h.chain
    · refine ⟨(isChain_snapshots h hlog ?_).1, hlog.emitted, hlog.externalized⟩
      rw [hp.ballots]
      exact hg.advance hs.now
  | rest hphase hcommit hlog hbad hnull hinv =>
    refine ⟨?_, emitted_quiet hlog, externalized_quiet hlog⟩
    rw [trace, snapshots_quiet hlog]
    exact h.chain

/-- **Monotonicity over whole runs.** The ballots advance from each emission to the next, up to
the current ones; a value is announced at most once; and each envelope sent is strictly newer than
all the ones sent before. -/
theorem run_monotone (node : Node) (inputs : List Input) :
    (trace (node.slotAfter inputs).log).IsChain Ballots.Advance ∧
    (node.faultAfter inputs = none →
      (trace (node.slotAfter inputs).log).getLast? = some (node.slotAfter inputs).ballots) ∧
    (externalized (node.slotAfter inputs).log).length ≤ 1 ∧
    (emitted (node.slotAfter inputs).log).Pairwise
      fun a b => isNewerStatement a.statement b.statement = true := by
  rcases run_spec_any node inputs with ⟨-, hpath⟩ | ⟨e, he, u, hpath, hcrash⟩
  · obtain ⟨-, h⟩ := hpath.forward ⟨sound_freshSlot, forward_freshSlot⟩
    exact ⟨h.chain, fun _ => h.last, h.announced, h.sent⟩
  · obtain ⟨hsound, h⟩ := hpath.forward ⟨sound_freshSlot, forward_freshSlot⟩
    obtain ⟨hchain, hemit, hann⟩ := hcrash.forward hsound h
    refine ⟨hchain, fun hnone => ?_, ?_, ?_⟩
    · rw [he] at hnone
      cases hnone
    · rw [hann]
      exact h.announced
    · rw [hemit]
      exact h.sent

/-- The other node has prepared up to counter 6, votes to commit up to counter 5, and then accepts
to commit up to counter 2. -/
def runToLowerHigh : List Input :=
  [.bumpState [1] false,
    .envelope (fromOther (.prepare ⟨7, ⟨6, [1]⟩, some ⟨6, [1]⟩, none, 1, 5⟩)),
    .envelope (fromOther (.confirm ⟨⟨6, [1]⟩, 6, 1, 2, 7⟩))]

/-- The high ballot goes back when the node enters `CONFIRM`, and again when it enters
`EXTERNALIZE`. -/
theorem high_goes_back :
    (¬ (trace (listener.slotAfter runToLowerHigh).log).IsChain fun x y => NotBelow x.h y.h) ∧
    (¬ (trace (listener.slotAfter runToLowerHigh).log).IsChain
      fun x y => y.phase = .CONFIRM → NotBelow x.h y.h) ∧
    ¬ (trace (listener.slotAfter runToLowerHigh).log).IsChain
      fun x y => y.phase = .EXTERNALIZE → NotBelow x.h y.h := by
  decide +kernel

end SmartCore.SCP
