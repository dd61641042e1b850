import SmartCore.SCP.Transition

/-!
# Slots at rest

What every path of the transition system keeps, as far as the refinement proof needs it: a slot
at rest (`Rest`) agrees with its own recorded statement, its recorded statements are sane, and it
has not announced a value before `EXTERNALIZE`. Inside an `attempt…` function, moreover, nothing
is heard from other nodes and the prepared ballot only rises (`InnerRel`).
-/

namespace SmartCore.SCP

variable {node : Node} {V : Value → Prop} {F inner : Prop} {R : SCPEnvelope → Prop} {s t u w : Slot}

/-! ## Logs and paths -/

theorem QuietLog.refl (s : Slot) : QuietLog s s := ⟨[], by simp, by simp⟩

theorem QuietLog.trans (h₁ : QuietLog s t) (h₂ : QuietLog t u) : QuietLog s u := by
  obtain ⟨es, he, hq⟩ := h₁
  obtain ⟨es', he', hq'⟩ := h₂
  refine ⟨es ++ es', by rw [he', he, List.append_assoc], fun e hmem => ?_⟩
  rcases List.mem_append.mp hmem with h | h
  · exact hq e h
  · exact hq' e h

theorem QuietLog.of_log_eq (h : t.log = s.log) : QuietLog s t := ⟨[], by simp [h], by simp⟩

theorem QuietLog.append {e : Event} (h : t.log = s.log ++ [e]) (he : e.Quiet) : QuietLog s t :=
  ⟨[e], h, by simpa using he⟩

theorem QuietLog.isPrefix (h : QuietLog s t) : s.log <+: t.log := by
  obtain ⟨es, he, -⟩ := h
  exact he ▸ List.prefix_append _ _

theorem Frame.refl (s : Slot) : Frame s s := ⟨rfl, rfl, rfl, rfl, rfl, QuietLog.refl s⟩

theorem Frame.trans (h₁ : Frame s t) (h₂ : Frame t u) : Frame s u where
  envelopes := h₂.envelopes.trans h₁.envelopes
  last := h₂.last.trans h₁.last
  lastEmit := h₂.lastEmit.trans h₁.lastEmit
  composite := h₂.composite.trans h₁.composite
  level := h₂.level.trans h₁.level
  log := h₁.log.trans h₂.log

/-- Nothing but quiet events. -/
theorem Frame.quiet (h : Frame s t) (hb : t.ballots = s.ballots) : QuietStep V s t :=
  ⟨hb, h.envelopes, h.last, h.lastEmit, Or.inl h.composite, h.log⟩

theorem Frame.logging (s : Slot) (e : Event) (he : e.Quiet) : Frame s (s.logging e) :=
  ⟨rfl, rfl, rfl, rfl, rfl, QuietLog.append rfl he⟩

/-- A filter that quiet events do not pass does not see a quiet extension. -/
theorem filterMap_quiet {α : Type} {f : Event → Option α} (hf : ∀ e, e.Quiet → f e = none)
    (h : QuietLog s t) : t.log.filterMap f = s.log.filterMap f := by
  obtain ⟨es, he, hq⟩ := h
  have hnil : es.filterMap f = [] := List.filterMap_eq_nil_iff.mpr fun e hmem => hf e (hq e hmem)
  rw [he, List.filterMap_append, hnil, List.append_nil]

theorem externalized_quiet (h : QuietLog s t) : externalized t.log = externalized s.log :=
  filterMap_quiet (fun e he => by cases e <;> simp_all [Event.Quiet]) h

theorem emitted_quiet (h : QuietLog s t) : emitted t.log = emitted s.log :=
  filterMap_quiet (fun e he => by cases e <;> simp_all [Event.Quiet]) h

theorem snapshots_quiet (h : QuietLog s t) : snapshots t.log = snapshots s.log :=
  filterMap_quiet (fun e he => by cases e <;> simp_all [Event.Quiet]) h

/-- The events of a quiet extension are old or quiet. -/
theorem QuietLog.mem {e : Event} (h : QuietLog s t) (he : ¬ e.Quiet) :
    e ∈ t.log ↔ e ∈ s.log := by
  obtain ⟨es, hes, hq⟩ := h
  rw [hes, List.mem_append]
  exact ⟨fun hmem => hmem.resolve_right fun h => he (hq e h), Or.inl⟩

section EmitLog

variable {env : SCPEnvelope} (h : EmitLog s t env)
include h

theorem EmitLog.externalized : externalized t.log = externalized s.log := by
  obtain ⟨u, v, bp, hq, hl, hv, -⟩ := h
  rw [externalized_quiet hv, hl, SCP.externalized, List.filterMap_append, ← SCP.externalized, externalized_quiet hq]
  simp

theorem EmitLog.emitted : emitted t.log = emitted s.log := by
  obtain ⟨u, v, bp, hq, hl, hv, -⟩ := h
  rw [emitted_quiet hv, hl, SCP.emitted, List.filterMap_append, ← SCP.emitted, emitted_quiet hq]
  simp

theorem EmitLog.snapshots : snapshots t.log = snapshots s.log ++ [t.ballots] := by
  obtain ⟨u, v, bp, hq, hl, hv, hb, -⟩ := h
  rw [snapshots_quiet hv, hl, SCP.snapshots, List.filterMap_append, ← SCP.snapshots, snapshots_quiet hq, ← hb]
  simp

/-- The only loud event of an emission is the emission. -/
theorem EmitLog.mem {e : Event} (he : ¬ e.Quiet) :
    e ∈ t.log ↔ e ∈ s.log ∨ ∃ bp : BallotProtocol, bp.ballots = t.ballots ∧
      bp.mLatestEnvelopes = s.mLatestEnvelopes ∧ e = .emitCurrentStateStatement bp env ∧
      e ∈ t.log := by
  obtain ⟨u, v, bp, hq, hl, hv, hb, henv⟩ := h
  constructor
  · intro hmem
    rw [hv.mem he, hl, List.mem_append, List.mem_singleton, hq.mem he] at hmem
    rcases hmem with h | rfl
    · exact Or.inl h
    · exact Or.inr ⟨bp, hb, henv, rfl, (hv.mem he).mpr (by simp [hl])⟩
  · rintro (h | ⟨-, -, -, -, h⟩)
    · rw [hv.mem he, hl, List.mem_append, hq.mem he]
      exact Or.inl h
    · exact h

/-- More quiet events may follow. -/
theorem EmitLog.quiet (hq : QuietLog t w) (hb : w.ballots = t.ballots) : EmitLog s w env := by
  obtain ⟨u, v, bp, hu, hl, hv, hbp, henvs⟩ := h
  exact ⟨u, v, bp, hu, hl, hv.trans hq, hbp.trans hb.symm, henvs⟩

theorem EmitLog.log_isPrefix : s.log <+: t.log := by
  obtain ⟨u, v, bp, hu, hl, hv, -⟩ := h
  exact hu.isPrefix.trans ((hl ▸ List.prefix_append _ _).trans hv.isPrefix)

end EmitLog

/-- The only event of a receipt is the question. -/
theorem Node.Received.quiet {env : SCPEnvelope} (h : node.Received V F R s t env) : QuietLog s t :=
  QuietLog.append h.log trivial

theorem Path.refl (s : Slot) : Path node V F R inner s s := Relation.ReflTransGen.refl

theorem Path.trans (h₁ : Path node V F R inner s t) (h₂ : Path node V F R inner t u) :
    Path node V F R inner s u :=
  Relation.ReflTransGen.trans h₁ h₂

theorem Path.single (h : Step node V F R inner s t) : Path node V F R inner s t :=
  Relation.ReflTransGen.single h

theorem Path.head (h₁ : Step node V F R inner s t) (h₂ : Path node V F R inner t u) :
    Path node V F R inner s u :=
  Relation.ReflTransGen.head h₁ h₂

/-- What can happen inside an `attempt…` function can happen anywhere. -/
theorem Step.weaken (h : Step node V F R True s t) : Step node V F R inner s t := by
  cases h with
  | quiet h => exact .quiet h
  | probe hint => exact .probe hint
  | publish ch env hbump hg h => exact .publish ch env (fun _ => hbump trivial) hg h
  | remember env h hlog => exact .remember env h hlog
  | send env hlast hemit => exact .send env hlast hemit
  | externalize v hphase hcommit hnone => exact .externalize v hphase hcommit hnone
  | receive env hin h => exact absurd trivial hin

theorem Path.weaken (h : Path node V F R True s t) : Path node V F R inner s t := by
  induction h with
  | refl => exact Path.refl s
  | tail _ hst ih => exact ih.trans (Path.single hst.weaken)

theorem Path.weaken_false (h : Path node V F R inner s t) : Path node V F R False s t := by
  by_cases hi : inner
  · rw [eq_true hi] at h
    exact h.weaken
  · rwa [eq_false hi] at h

theorem CrashFrom.of_path {e : Fault} (h : Path node V F R inner s t)
    (hc : CrashFrom node V F R t e u) : CrashFrom node V F R s e u := by
  obtain ⟨w, hw, hcrash⟩ := hc
  exact ⟨w, h.weaken_false.trans hw, hcrash⟩

/-- A property that every step keeps holds along every path. -/
theorem Path.invariant {P : Slot → Prop} (hstep : ∀ s t, Step node V F R inner s t → P s → P t)
    (h : Path node V F R inner s t) (hs : P s) : P t := by
  induction h with
  | refl => exact hs
  | tail _ hst ih => exact hstep _ _ hst ih

/-- Events are only ever added. -/
theorem Step.log_isPrefix (h : Step node V F R inner s t) : s.log <+: t.log := by
  cases h with
  | quiet hq => exact hq.log.isPrefix
  | probe hint => exact List.prefix_append _ _
  | publish ch env hbump hg hp => exact hp.log.log_isPrefix
  | remember env hn => exact List.prefix_refl _
  | send env hlast hemit => exact List.prefix_append _ _
  | externalize v hphase hcommit hnone => exact List.prefix_append _ _
  | receive env hin hr => exact hr.log ▸ List.prefix_append _ _

theorem Path.log_isPrefix (h : Path node V F R inner s t) : s.log <+: t.log :=
  h.invariant (P := fun t => s.log <+: t.log) (fun _ _ hst hs => hs.trans hst.log_isPrefix)
    (List.prefix_refl _)

theorem Step.log_subset (h : Step node V F R inner s t) : s.log ⊆ t.log := h.log_isPrefix.subset

theorem Path.log_subset (h : Path node V F R inner s t) : s.log ⊆ t.log := h.log_isPrefix.subset

theorem Step.ballots_eq (hst : Step node V F R inner s t) :
    t.ballots = s.ballots ∨ ∃ ch env, Guard node V F s ch ∧ node.Published s t ch env := by
  cases hst with
  | quiet hq => exact Or.inl hq.ballots
  | publish ch env hbump hg hp => exact Or.inr ⟨ch, env, hg, hp⟩
  | receive env hin hr => exact Or.inl hr.ballots
  | _ => exact Or.inl rfl

/-- A step emits what it publishes, with the ballots that it leaves. -/
theorem Step.emission (hst : Step node V F R inner s t) {bp : BallotProtocol} {env : SCPEnvelope}
    (hmem : Event.emitCurrentStateStatement bp env ∈ t.log) :
    Event.emitCurrentStateStatement bp env ∈ s.log ∨
      ∃ ch, Guard node V F s ch ∧ node.Published s t ch env ∧ bp.ballots = t.ballots := by
  cases hst with
  | quiet hq => exact Or.inl ((hq.log.mem (by simp [Event.Quiet])).mp hmem)
  | publish ch env' hbump hg hp =>
    rcases (hp.log.mem (by simp [Event.Quiet])).mp hmem with hold | ⟨bp', hbp, -, heq, -⟩
    · exact Or.inl hold
    · obtain ⟨rfl, rfl⟩ := Event.emitCurrentStateStatement.inj heq
      exact Or.inr ⟨ch, hg, hp, hbp⟩
  | receive env' hin hr => exact Or.inl ((hr.quiet.mem (by simp [Event.Quiet])).mp hmem)
  | _ => exact Or.inl (by simpa using hmem)

/-- A step remembers only what was emitted. -/
theorem Step.last (hst : Step node V F R inner s t) {env : SCPEnvelope}
    (he : t.mLastEnvelope = some env) : s.mLastEnvelope = some env ∨
      ∃ bp, Event.emitCurrentStateStatement bp env ∈ s.log := by
  cases hst with
  | quiet hq => exact Or.inl (hq.last ▸ he)
  | publish ch env' hbump hg hp => exact Or.inl (hp.last ▸ he)
  | remember env' hn hlog =>
    obtain rfl := Option.some.inj he
    exact Or.inr hlog
  | receive env' hin hr => exact Or.inl (hr.last ▸ he)
  | _ => exact Or.inl he

/-- A step sends only what it remembers. -/
theorem Step.sent (hst : Step node V F R inner s t) {env : SCPEnvelope}
    (he : env ∈ emitted t.log) : env ∈ emitted s.log ∨ s.mLastEnvelope = some env := by
  cases hst with
  | quiet hq => exact Or.inl (emitted_quiet hq.log ▸ he)
  | publish ch env' hbump hg hp => exact Or.inl (hp.log.emitted ▸ he)
  | send env' hlast hemit =>
    have he' : env ∈ emitted s.log ∨ env = env' := by simpa [emitted] using he
    rcases he' with he' | rfl
    · exact Or.inl he'
    · exact Or.inr hlast
  | receive env' hin hr => exact Or.inl (emitted_quiet hr.quiet ▸ he)
  | _ => exact Or.inl (by simpa [emitted] using he)

/-! ## Rest -/

/-- The node's own recorded statement is the one its ballots give; before it has made any, its
ballots are fresh. -/
def Sync (node : Node) (s : Slot) : Prop :=
  (s.mLatestEnvelopes[node.nodeID]? = none ∧ s.ballots = {}) ∨
    ∃ pledges, node.pledgesOf s.ballots = some pledges ∧
      s.mLatestEnvelopes[node.nodeID]? = some (node.createEnvelope pledges)

/-- `p'` is below `p` and incompatible with it. -/
def Ballots.PrimeBelow (x : Ballots) : Prop :=
  ∀ p', x.p' = some p' → ∃ p, x.p = some p ∧ p' ≤ p ∧ p'.value ≠ p.value

/-- A slot between two transitions. -/
structure Rest (node : Node) (V : Value → Prop) (F : Prop) (s : Slot) : Prop where
  sync : F → Sync node s
  prime : s.ballots.PrimeBelow
  announced : s.mPhase ≠ .EXTERNALIZE → externalized s.log = []
  composite : s.mLatestCompositeCandidate = [] ∨ V s.mLatestCompositeCandidate
  recorded : ∀ (n : NodeID) (env : SCPEnvelope), s.mLatestEnvelopes[n]? = some env →
    env.statement.nodeID = n ∧ pledgesSane env.statement.pledges true = true

theorem pledgesSane_self {pledges : Pledges} (h : pledgesSane pledges false = true) :
    pledgesSane pledges true = true := by
  cases pledges <;> simp_all [pledgesSane]

theorem isStatementSane_pledges {st : SCPStatement} {self : Bool}
    (h : node.isStatementSane st self = true) : pledgesSane st.pledges self = true := by
  simp only [Node.isStatementSane, Bool.and_eq_true] at h
  exact h.2

@[simp] theorem ballots_phase (s : BallotProtocol) : s.ballots.phase = s.mPhase := rfl

@[simp] theorem ballots_b (s : BallotProtocol) : s.ballots.b = s.mCurrentBallot := rfl

@[simp] theorem ballots_p (s : BallotProtocol) : s.ballots.p = s.mPrepared := rfl

@[simp] theorem ballots_p' (s : BallotProtocol) : s.ballots.p' = s.mPreparedPrime := rfl

@[simp] theorem ballots_h (s : BallotProtocol) : s.ballots.h = s.mHighBallot := rfl

@[simp] theorem ballots_c (s : BallotProtocol) : s.ballots.c = s.mCommit := rfl

/-- What is checked of a statement depends on the ballots and on the recorded statements. -/
theorem Node.Processable.of_same {n : ℕ} {st : SCPStatement}
    (h : node.Processable n t.toBallotProtocol st) (hb : t.ballots = s.ballots)
    (he : t.mLatestEnvelopes = s.mLatestEnvelopes) : node.Processable n s.toBallotProtocol st where
  sane := h.sane
  newer := he ▸ h.newer
  valid := h.valid
  committed := by
    rw [← ballots_phase, ← ballots_c, ← hb]
    exact h.committed

/-- No change is made once the node has externalized. -/
theorem Guard.phase_ne {ch : Change} (h : Guard node V F s ch) : s.mPhase ≠ .EXTERNALIZE := by
  cases ch with
  | acceptPrepared ballot => exact h.1
  | confirmPrepared newC newH =>
    have := h.1
    simp_all
  | acceptCommit c h' => exact h.1
  | confirmCommit c h' =>
    have := h.1
    simp_all
  | bump newb => exact h.1

theorem Guard.primeBelow {ch : Change} (hg : Guard node V F s ch)
    (h : s.ballots.PrimeBelow) : (ch.apply s.ballots).PrimeBelow := by
  cases ch with
  | acceptPrepared ballot =>
    obtain ⟨-, -, hprime, hcov, -⟩ := hg
    intro q' hq'
    simp only [Change.apply, ballots_p, ballots_p'] at hq' ⊢
    rcases setPrepared_cases hprime hcov with ⟨hn, hset⟩ | ⟨q, hq, hlt, hset⟩ | ⟨q, -, hlt, hne, hset⟩
    · rw [hset] at hq'
      obtain ⟨p, hp, -⟩ := h q' hq'
      rw [ballots_p, hn] at hp
      cases hp
    · rw [hset] at hq' ⊢
      simp only at hq' ⊢
      split_ifs at hq' with hv
      · obtain ⟨p, hp, hle, hne⟩ := h q' hq'
        obtain rfl : p = q := Option.some.inj (hp.symm.trans hq)
        exact ⟨ballot, rfl, hle.trans hlt.le, by rwa [← hv]⟩
      · obtain rfl := Option.some.inj hq'
        exact ⟨ballot, rfl, hlt.le, hv⟩
    · rw [hset] at hq' ⊢
      obtain rfl := Option.some.inj hq'
      exact ⟨q, rfl, hlt.le, hne⟩
  | confirmPrepared newC newH => exact h
  | acceptCommit c h' =>
    simp only [Change.apply]
    split_ifs
    · intro p' hp'
      cases hp'
    · exact h
  | confirmCommit c h' => exact h
  | bump newb => exact h

theorem getElem?_insert_self {envs : EnvelopeMap} {n : NodeID} {env : SCPEnvelope} :
    (envs.insert n env)[n]? = some env := by
  simp

theorem getElem?_insert_ne {envs : EnvelopeMap} {n m : NodeID} {env : SCPEnvelope} (h : n ≠ m) :
    (envs.insert n env)[m]? = envs[m]? := by
  rw [Std.ExtTreeMap.getElem?_insert, if_neg]
  simpa using h

theorem Step.rest (hst : Step node V F R inner s t) (h : Rest node V F s) : Rest node V F t := by
  cases hst with
  | quiet hq =>
    refine ⟨fun hF => ?_, ?_, fun hp => ?_, ?_, fun n env henv => ?_⟩
    · have := h.sync hF
      simp only [Sync, hq.ballots, hq.envelopes]
      exact this
    · rw [hq.ballots]
      exact h.prime
    · rw [externalized_quiet hq.log]
      exact h.announced (by rwa [← ballots_phase, hq.ballots] at hp)
    · rcases hq.composite with hc | hc
      · rw [hc]; exact h.composite
      · exact Or.inr hc
    · exact h.recorded n env (by rwa [hq.envelopes] at henv)
  | probe hint =>
    refine ⟨h.sync, h.prime, fun hp => ?_, h.composite, h.recorded⟩
    simpa [externalized] using h.announced hp
  | publish ch env hbump hg hp =>
    obtain ⟨pledges, hpl, rfl⟩ := hp.statement
    refine ⟨fun _ => Or.inr ⟨pledges, hpl, ?_⟩, ?_, fun _ => ?_, ?_, fun n env henv => ?_⟩
    · rw [hp.envelopes, getElem?_insert_self]
    · rw [hp.ballots]
      exact hg.primeBelow h.prime
    · rw [hp.log.externalized]
      exact h.announced hg.phase_ne
    · rw [hp.composite]; exact h.composite
    · rw [hp.envelopes] at henv
      by_cases hn : node.nodeID = n
      · subst hn
        rw [getElem?_insert_self] at henv
        obtain rfl := Option.some.inj henv
        refine ⟨rfl, ?_⟩
        rcases hp.processable with hrec | ⟨bp, n, -, -, -, -, hproc⟩
        · exact (h.recorded _ _ hrec).2
        · exact isStatementSane_pledges hproc.sane
      · exact h.recorded n env (by rwa [getElem?_insert_ne hn] at henv)
  | remember env hn => exact ⟨h.sync, h.prime, h.announced, h.composite, h.recorded⟩
  | send env hlast hemit =>
    refine ⟨h.sync, h.prime, fun hp => ?_, h.composite, h.recorded⟩
    simpa [externalized] using h.announced hp
  | externalize v hphase hcommit hnone =>
    exact ⟨h.sync, h.prime, fun hp => absurd hphase hp, h.composite, h.recorded⟩
  | receive env hin hr =>
    refine ⟨fun hF => ?_, ?_, fun hp => ?_, ?_, fun n env' henv => ?_⟩
    · have := h.sync hF
      simp only [Sync, hr.ballots, hr.envelopes, getElem?_insert_ne (hr.own hF)]
      exact this
    · rw [hr.ballots]
      exact h.prime
    · rw [externalized_quiet hr.quiet]
      exact h.announced (by rwa [← ballots_phase, hr.ballots] at hp)
    · rw [hr.composite]; exact h.composite
    · rw [hr.envelopes] at henv
      by_cases hn : env.statement.nodeID = n
      · subst hn
        rw [getElem?_insert_self] at henv
        obtain rfl := Option.some.inj henv
        exact ⟨rfl, pledgesSane_self (isStatementSane_pledges hr.sane)⟩
      · exact h.recorded n env' (by rwa [getElem?_insert_ne hn] at henv)

theorem Path.rest (h : Path node V F R inner s t) (hs : Rest node V F s) : Rest node V F t :=
  h.invariant (fun _ _ => Step.rest) hs

theorem rest_freshSlot : Rest node V F (freshSlot node) where
  sync _ := Or.inl ⟨by simp [freshSlot], rfl⟩
  prime p' h := by cases h
  announced _ := rfl
  composite := Or.inl rfl
  recorded := by simp [freshSlot]

/-! ## Inside an attempt -/

theorem raiseTo_cases (b : Option SCPBallot) (h : SCPBallot) :
    (raiseTo b h = some h ∧ ∀ b₀, b = some b₀ → b₀ < h) ∨
      (∃ b₀, b = some b₀ ∧ h ≤ b₀ ∧ raiseTo b h = b) := by
  cases b with
  | none => exact Or.inl ⟨rfl, by simp⟩
  | some b₀ =>
    by_cases hlt : b₀ < h
    · exact Or.inl ⟨by simp [raiseTo, hlt], by simpa using hlt⟩
    · exact Or.inr ⟨b₀, rfl, not_lt.mp hlt, by simp [raiseTo, hlt]⟩

/-- What a path inside an `attempt…` function cannot do. -/
structure InnerRel (node : Node) (F : Prop) (s t : Slot) : Prop where
  others : ∀ n : NodeID, n ≠ node.nodeID → t.mLatestEnvelopes[n]? = s.mLatestEnvelopes[n]?
  phase : t.mPhase = .PREPARE → s.mPhase = .PREPARE
  prepared : ∀ p, s.mPrepared = some p → ∃ q, t.mPrepared = some q ∧ p ≤ q
  current : F → t.mPhase = .PREPARE →
    t.mCurrentBallot = s.mCurrentBallot ∨
      ∃ b p, t.mCurrentBallot = some b ∧ t.mPrepared = some p ∧ b ≤ p

theorem InnerRel.of_ballots (hb : t.ballots = s.ballots)
    (he : t.mLatestEnvelopes = s.mLatestEnvelopes) : InnerRel node F s t where
  others n _ := by rw [he]
  phase h := by rwa [← ballots_phase, hb] at h
  prepared p h := ⟨p, by rw [← ballots_p, hb]; exact h, le_rfl⟩
  current _ _ := Or.inl (by rw [← ballots_b, hb]; rfl)

theorem InnerRel.trans (h₁ : InnerRel node F s t) (h₂ : InnerRel node F t u) :
    InnerRel node F s u where
  others n hn := (h₂.others n hn).trans (h₁.others n hn)
  phase h := h₁.phase (h₂.phase h)
  prepared p hp := by
    obtain ⟨q, hq, hle⟩ := h₁.prepared p hp
    obtain ⟨r, hr, hle'⟩ := h₂.prepared q hq
    exact ⟨r, hr, hle.trans hle'⟩
  current hF hu := by
    rcases h₂.current hF hu with h | h
    · rcases h₁.current hF (h₂.phase hu) with h' | ⟨b, p, hb, hp, hle⟩
      · exact Or.inl (h.trans h')
      · obtain ⟨q, hq, hle'⟩ := h₂.prepared p hp
        exact Or.inr ⟨b, q, h.trans hb, hq, hle.trans hle'⟩
    · exact Or.inr h

/-- The prepared ballot never goes down. -/
theorem Guard.prepared_le {ch : Change} (hg : Guard node V F s ch) {p : SCPBallot}
    (hp : s.mPrepared = some p) : ∃ q, (ch.apply s.ballots).p = some q ∧ p ≤ q := by
  cases ch with
  | acceptPrepared ballot =>
    obtain ⟨-, -, hprime, hcov, -⟩ := hg
    simp only [Change.apply, ballots_p, ballots_p']
    rcases setPrepared_cases hprime hcov with ⟨hn, -⟩ | ⟨q, hq, hlt, h⟩ | ⟨q, hq, hlt, -, h⟩
    · rw [hp] at hn
      cases hn
    · obtain rfl : q = p := Option.some.inj (hq.symm.trans hp)
      exact ⟨ballot, by rw [h], hlt.le⟩
    · obtain rfl : q = p := Option.some.inj (hq.symm.trans hp)
      exact ⟨q, by rw [h], le_rfl⟩
  | confirmPrepared newC newH => exact ⟨p, hp, le_rfl⟩
  | acceptCommit c h =>
    refine ⟨p, ?_, le_rfl⟩
    simp only [Change.apply]
    split_ifs <;> exact hp
  | confirmCommit c h => exact ⟨p, hp, le_rfl⟩
  | bump newb => exact ⟨p, hp, le_rfl⟩

theorem Guard.phase_of_prepare {ch : Change}
    (h : (ch.apply s.ballots).phase = .PREPARE) : s.mPhase = .PREPARE := by
  cases ch with
  | acceptCommit c h' =>
    by_contra hp
    simp [Change.apply, hp] at h
  | confirmCommit c h' => simp [Change.apply] at h
  | acceptPrepared ballot => exact h
  | confirmPrepared newC newH => exact h
  | bump newb => exact h

theorem Step.innerRel (hst : Step node V F R True s t) : InnerRel node F s t := by
  cases hst with
  | quiet hq => exact InnerRel.of_ballots hq.ballots hq.envelopes
  | probe hint => exact InnerRel.of_ballots rfl rfl
  | publish ch env hbump hg hp =>
    have hphase : t.mPhase = .PREPARE → s.mPhase = .PREPARE := fun h =>
      Guard.phase_of_prepare (by rwa [← hp.ballots])
    refine ⟨fun n hn => ?_, hphase, fun p hsp => ?_, fun hF ht => ?_⟩
    · rw [hp.envelopes, getElem?_insert_ne hn.symm]
    · obtain ⟨q, hq, hle⟩ := hg.prepared_le hsp
      exact ⟨q, by rw [← ballots_p, hp.ballots, hq], hle⟩
    · have hb : t.mCurrentBallot = (ch.apply s.ballots).b := by rw [← hp.ballots]; rfl
      have hpp : t.mPrepared = (ch.apply s.ballots).p := by rw [← hp.ballots]; rfl
      have hph : (ch.apply s.ballots).phase = .PREPARE := by rwa [← hp.ballots]
      cases ch with
      | acceptPrepared ballot => exact Or.inl hb
      | confirmPrepared newC newH =>
        obtain ⟨p, hsp, hle⟩ := hg.2.2.2 hF
        rcases raiseTo_cases s.mCurrentBallot newH with ⟨heq, -⟩ | ⟨b₀, -, -, heq⟩
        · exact Or.inr ⟨newH, p, hb.trans heq, hpp.trans hsp, hle⟩
        · exact Or.inl (hb.trans heq)
      | acceptCommit c h =>
        simp only [Change.apply] at hph
        split_ifs at hph with hs
        exact absurd hph hs
      | confirmCommit c h => simp [Change.apply] at hph
      | bump newb => exact absurd rfl (hbump trivial newb)
  | remember env h => exact InnerRel.of_ballots rfl rfl
  | send env hlast hemit => exact InnerRel.of_ballots rfl rfl
  | externalize v hphase hcommit hnone => exact InnerRel.of_ballots rfl rfl
  | receive env hin hr => exact absurd trivial hin

theorem Path.innerRel (h : Path node V F R True s t) : InnerRel node F s t := by
  induction h with
  | refl => exact InnerRel.of_ballots rfl rfl
  | tail _ hst ih => exact ih.trans hst.innerRel

end SmartCore.SCP
