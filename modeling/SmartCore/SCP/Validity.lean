import SmartCore.SCP.Announced
import SmartCore.SCP.SelfStatement

/-!
# Values that nobody refuses

What a node does with a value depends on what its driver thinks of it. A statement with a value that
the driver rates invalid is not processed, and that holds for the statements that the node makes
itself. The driver may change its mind. The node states what it externalizes before it announces it,
so it asks once more: a value that the driver has come to reject is never announced
(`announced_accepted`), however many other nodes want it.
-/

namespace SmartCore.SCP

variable {node : Node} {V : Value → Prop} {F inner : Prop} {R : SCPEnvelope → Prop} {s t : Slot}
  {k n : ℕ} {log log' : List Event}

/-! ## Statements that pass -/

/-- The `n`th event asks the driver about the statement, and the driver lets it through. -/
def Node.Admits (node : Node) (log : List Event) (n : ℕ) (st : SCPStatement) : Prop :=
  log[n]? = some (.validateValues st) ∧ node.validateValues n st ≠ .kInvalidValue

/-- The `n`th event asks the driver about the value, and the driver does not reject it. -/
def Node.Passes (node : Node) (log : List Event) (n : ℕ) (v : Value) : Prop :=
  ∃ st, log[n]? = some (.validateValues st) ∧ AsksAbout st v ∧
    node.validateValue n v ≠ .kInvalidValue

theorem getElem?_of_isPrefix {e : Event} (h : log <+: log') (he : log[n]? = some e) :
    log'[n]? = some e := by
  obtain ⟨es, rfl⟩ := h
  obtain ⟨hlt, -⟩ := List.getElem?_eq_some_iff.mp he
  rwa [List.getElem?_append_left hlt]

theorem Node.Admits.mono {st : SCPStatement} (h : node.Admits log n st) (hlog : log <+: log') :
    node.Admits log' n st :=
  ⟨getElem?_of_isPrefix hlog h.1, h.2⟩

theorem Node.Passes.mono {v : Value} (h : node.Passes log n v) (hlog : log <+: log') :
    node.Passes log' n v := by
  obtain ⟨st, hst, hv⟩ := h
  exact ⟨st, getElem?_of_isPrefix hlog hst, hv⟩

theorem validateLoop_invalid {l : List Value}
    (h : ∀ v ∈ l, node.validateValue n v = .kInvalidValue) :
    node.validateLoop n l .kInvalidValue = .kInvalidValue := by
  induction l with
  | nil => rfl
  | cons v l ih =>
    rw [Node.validateLoop, h v List.mem_cons_self]
    exact ih fun w hw => h w (List.mem_cons_of_mem _ hw)

/-- A statement that externalizes has one value. -/
theorem Node.Admits.externalize {st : SCPStatement} {e : Externalize} (hst : node.Admits log n st)
    (h : st.pledges = .externalize e) : node.Passes log n e.commit.value := by
  have hmem : ∀ v, v ∈ (valuesToValidate st).toList ↔ v = e.commit.value := by
    intro v
    rw [Std.ExtTreeSet.mem_toList, valuesToValidate, h]
    simpa using eq_comm
  refine ⟨st, hst.1, (hmem _).mpr rfl, fun hinvalid => ?_⟩
  refine hst.2 ?_
  rw [Node.validateValues]
  cases hl : (valuesToValidate st).toList with
  | nil =>
    have hin := (hmem _).mpr rfl
    rw [hl] at hin
    cases hin
  | cons v l =>
    have hall : ∀ w ∈ v :: l, node.validateValue n w = .kInvalidValue := by
      intro w hw
      rw [← hl] at hw
      rw [(hmem w).mp hw, hinvalid]
    rw [Node.validateLoop, hall v List.mem_cons_self]
    exact validateLoop_invalid fun w hw => hall w (List.mem_cons_of_mem _ hw)

/-! ## What the node keeps -/

/-- The driver was asked about what the node has recorded, and let it through. -/
def Node.Recorded (node : Node) (s : Slot) : Prop :=
  ∀ (m : NodeID) (env : SCPEnvelope), s.mLatestEnvelopes[m]? = some env →
    ∃ n, node.Admits s.log n env.statement

theorem recorded_freshSlot : node.Recorded (freshSlot node) := by
  intro m env h
  simp [freshSlot] at h

theorem Node.Recorded.of_same (h : node.Recorded s)
    (henvelopes : t.mLatestEnvelopes = s.mLatestEnvelopes) (hlog : s.log <+: t.log) :
    node.Recorded t := by
  intro m env henv
  rw [henvelopes] at henv
  obtain ⟨n, hn⟩ := h m env henv
  exact ⟨n, hn.mono hlog⟩

/-- One more envelope is recorded. -/
theorem Node.Recorded.insert {env : SCPEnvelope} {m : NodeID} (h : node.Recorded s)
    (henvelopes : t.mLatestEnvelopes = s.mLatestEnvelopes.insert m env) (hlog : s.log <+: t.log)
    (henv : ∃ n, node.Admits t.log n env.statement) : node.Recorded t := by
  intro m' env' h'
  rw [henvelopes] at h'
  by_cases hm : m = m'
  · rw [← hm, getElem?_insert_self] at h'
    obtain rfl := Option.some.inj h'
    exact henv
  · rw [getElem?_insert_ne hm] at h'
    obtain ⟨n, hn⟩ := h m' env' h'
    exact ⟨n, hn.mono hlog⟩

theorem Step.recorded (hst : Step node V F R inner s t) (h : node.Recorded s) :
    node.Recorded t := by
  have hlog := hst.log_isPrefix
  cases hst with
  | quiet hq => exact h.of_same hq.envelopes hlog
  | probe hint => exact h.of_same rfl hlog
  | publish ch env hbump hg hp =>
    refine h.insert hp.envelopes hlog ?_
    rcases hp.processable with hrec | ⟨bp, n, -, -, -, hn, hproc⟩
    · obtain ⟨n, hn⟩ := h _ _ hrec
      exact ⟨n, hn.mono hlog⟩
    · exact ⟨n, hn, hproc.valid⟩
  | remember env hn => exact h.of_same rfl hlog
  | send env hlast hemit => exact h.of_same rfl hlog
  | externalize v hphase hcommit hnone => exact h.of_same rfl hlog
  | receive env hin hr =>
    refine h.insert hr.envelopes hlog ⟨s.log.length, ?_, hr.valid⟩
    rw [hr.log, List.getElem?_concat_length]

/-- After `k` events or more, the driver was asked about what the node has committed to or
announced, and did not reject it. -/
structure Accepted (node : Node) (k : ℕ) (s : Slot) : Prop where
  committed : s.mPhase = .EXTERNALIZE → ∀ c, s.mCommit = some c →
    ∃ n ≥ k, node.Passes s.log n c.value
  announced : ∀ v ∈ externalized s.log, ∃ n ≥ k, node.Passes s.log n v

/-- A slot that has not externalized. -/
theorem Accepted.of_phase (hphase : s.mPhase ≠ .EXTERNALIZE) (hnone : externalized s.log = []) :
    Accepted node k s where
  committed := fun h => absurd h hphase
  announced := by simp [hnone]

theorem Accepted.of_same (h : Accepted node k s) (hphase : t.mPhase = s.mPhase)
    (hcommit : t.mCommit = s.mCommit) (hsame : externalized t.log = externalized s.log)
    (hlog : s.log <+: t.log) : Accepted node k t where
  committed := by
    rw [hphase, hcommit]
    intro hp c hc
    obtain ⟨n, hn, hpass⟩ := h.committed hp c hc
    exact ⟨n, hn, hpass.mono hlog⟩
  announced := by
    rw [hsame]
    intro v hv
    obtain ⟨n, hn, hpass⟩ := h.announced v hv
    exact ⟨n, hn, hpass.mono hlog⟩

/-- What an own statement that externalizes says, if it is recorded before the node gets there. -/
def Node.Foreseen (node : Node) (k : ℕ) (s : Slot) : Prop :=
  s.mPhase ≠ .EXTERNALIZE → ∀ env, s.mLatestEnvelopes[node.nodeID]? = some env →
    ∀ e, env.statement.pledges = .externalize e → ∃ n ≥ k, node.Admits s.log n env.statement

/-- The node's own statement was checked like any other, when it was recorded first. -/
theorem Node.Published.admits {ch : Change} {env : SCPEnvelope} {e : Externalize}
    (hp : node.Published s t ch env) (hk : k ≤ s.log.length) (hphase : s.mPhase ≠ .EXTERNALIZE)
    (hown : node.Foreseen k s) (he : env.statement.pledges = .externalize e) :
    ∃ n ≥ k, node.Admits t.log n env.statement := by
  rcases hp.processable with hrec | ⟨bp, n, -, -, hle, hn, hproc⟩
  · obtain ⟨n, hn, hadmits⟩ := hown hphase env hrec e he
    exact ⟨n, hn, hadmits.mono hp.log.log_isPrefix⟩
  · exact ⟨n, hk.trans hle, hn, hproc.valid⟩

theorem Step.accepted (hst : Step node V F R inner s t) (hk : k ≤ s.log.length)
    (hown : node.Foreseen k s) (h : Accepted node k s) : Accepted node k t := by
  have hlog := hst.log_isPrefix
  cases hst with
  | quiet hq =>
    refine h.of_same ?_ ?_ (externalized_quiet hq.log) hlog
    · rw [← ballots_phase, hq.ballots]
      rfl
    · rw [← ballots_c, hq.ballots]
      rfl
  | probe hint => exact h.of_same rfl rfl (by simp [externalized]) hlog
  | publish ch env hbump hg hp =>
    refine ⟨fun hphase c hc => ?_, fun v hv => ?_⟩
    · -- the statement says what was committed
      obtain ⟨pledges, hpl, rfl⟩ := hp.statement
      rw [Node.pledgesOf] at hpl
      simp only [ballots_phase, ballots_c, hphase, hc] at hpl
      cases hh : t.ballots.h with
      | none =>
        rw [hh] at hpl
        cases hpl
      | some h' =>
        rw [hh] at hpl
        obtain rfl := Option.some.inj hpl
        obtain ⟨n, hn, hadmits⟩ := hp.admits hk hg.phase_ne hown rfl
        exact ⟨n, hn, hadmits.externalize rfl⟩
    · rw [hp.log.externalized] at hv
      obtain ⟨n, hn, hpass⟩ := h.announced v hv
      exact ⟨n, hn, hpass.mono hlog⟩
  | remember env hn => exact h.of_same rfl rfl rfl hlog
  | send env hlast hemit => exact h.of_same rfl rfl (by simp [externalized]) hlog
  | externalize v hphase hcommit hnone =>
    obtain ⟨c, hc, rfl⟩ := hcommit
    have hpass : ∃ n ≥ k, node.Passes (s.logging (.valueExternalized c.value)).log n c.value := by
      obtain ⟨n, hn, hpass⟩ := h.committed hphase c hc
      exact ⟨n, hn, hpass.mono hlog⟩
    refine ⟨fun _ c' hc' => ?_, fun v hv => ?_⟩
    · obtain rfl : c = c' := Option.some.inj (hc.symm.trans hc')
      exact hpass
    · have hsame : externalized (s.logging (.valueExternalized c.value)).log =
          externalized s.log ++ [c.value] := by
        simp [externalized]
      rw [hsame, hnone, List.nil_append, List.mem_singleton] at hv
      exact hv ▸ hpass
  | receive env hin hr =>
    refine h.of_same ?_ ?_ (externalized_quiet hr.quiet) hlog
    · rw [← ballots_phase, hr.ballots]
      rfl
    · rw [← ballots_c, hr.ballots]
      rfl

/-! ## Runs -/

/-- In any run, what is announced was let through at some time. -/
theorem announced_passes (node : Node) (inputs : List Input) :
    ∀ x ∈ externalized (node.slotAfter inputs).log,
      ∃ n, node.Passes (node.slotAfter inputs).log n x := by
  have hpath : ∀ s, Path node (fun _ => True) False (fun _ => True) False (freshSlot node) s →
      node.Recorded s ∧ Accepted node 0 s := by
    intro s h
    refine h.invariant (P := fun s => node.Recorded s ∧ Accepted node 0 s) (fun s t hst hs => ?_)
      ⟨recorded_freshSlot, .of_phase nofun rfl⟩
    obtain ⟨hrec, hacc⟩ := hs
    refine ⟨hst.recorded hrec, hst.accepted (Nat.zero_le _) (fun _ env henv e _ => ?_) hacc⟩
    obtain ⟨n, hn⟩ := hrec _ env henv
    exact ⟨n, Nat.zero_le n, hn⟩
  intro x hx
  rcases run_spec_any node inputs with ⟨-, h⟩ | ⟨e, -, u, h, hcrash⟩
  · obtain ⟨n, -, hpass⟩ := (hpath _ h).2.announced x hx
    exact ⟨n, hpass⟩
  · rw [hcrash.externalized] at hx
    obtain ⟨n, -, hpass⟩ := (hpath u h).2.announced x hx
    exact ⟨n, hpass.mono hcrash.log_isPrefix⟩

/-- A node that knows which statements are its own has none recorded that it has not come to. -/
theorem Rest.foreseen (h : Rest node V True s) : node.Foreseen k s := by
  intro hphase env henv e he
  rcases h.sync trivial with ⟨hnone, -⟩ | ⟨pledges, hpl, hown⟩
  · rw [hnone] at henv
    cases henv
  · obtain rfl : node.createEnvelope pledges = env := Option.some.inj (hown.symm.trans henv)
    obtain rfl : pledges = .externalize e := he
    exact absurd (pledgesOf_type hpl).symm hphase

/-- The inputs of a run in which nobody signs for the node are fine in the slots they arrive in. -/
theorem inputOk_of_signed {inputs pre post : List Input} {i : Input}
    (hsigned : node.OwnSigned inputs) (heq : inputs = pre ++ i :: post)
    (hrun : node.run pre = .ok () s)
    (hpath : Path node (fun _ => True) True (fun _ => True) False (freshSlot node) s) :
    InputOk node (fun _ => True) True (fun _ => True) s i := by
  have hslot : node.slotAfter pre = s := by simp [Node.slotAfter, hrun]
  cases i with
  | envelope env =>
    refine ⟨trivial, fun _ => ⟨fun _ _ _ => trivial, fun hown => ?_⟩⟩
    obtain ⟨bp, hmem⟩ := hsigned pre env post heq hown
    have hinv : node.Signed s := hpath.invariant (fun _ _ => Step.signed) signed_freshSlot
    exact hinv.not_newer (hslot ▸ hmem)
  | bumpState value force => trivial
  | updatedCandidateValue value => trivial
  | timerExpired => trivial
  | abandonBallot => trivial

/-- From a slot that has not externalized, what is announced is let through later. -/
theorem Path.accepted (h : Path node V True R inner s t) (hrest : Rest node V True s)
    (hphase : s.mPhase ≠ .EXTERNALIZE) : Accepted node s.log.length t := by
  have hkeeps : ∀ u w, Step node V True R inner u w →
      (Rest node V True u ∧ s.log <+: u.log ∧ Accepted node s.log.length u) →
      Rest node V True w ∧ s.log <+: w.log ∧ Accepted node s.log.length w := by
    intro u w hst hu
    obtain ⟨hrest, hlog, hacc⟩ := hu
    exact ⟨hst.rest hrest, hlog.trans hst.log_isPrefix,
      hst.accepted hlog.length_le hrest.foreseen hacc⟩
  have hstart : Accepted node s.log.length s := .of_phase hphase (hrest.announced hphase)
  exact (h.invariant hkeeps ⟨hrest, List.prefix_refl _, hstart⟩).2.2

/-- When the inputs come in two parts, and the node has not externalized after the first, what is
announced is let through in the second. -/
theorem wp_run_passes {pre post : List Input} (hsigned : node.OwnSigned (pre ++ post))
    (hphase : (node.slotAfter pre).mPhase ≠ .EXTERNALIZE) :
    let Good := fun t : Slot => ∀ x ∈ externalized t.log,
      ∃ n ≥ (node.slotAfter pre).log.length, node.Passes t.log n x
    wp (runInputs node.step (pre ++ post)) (fun _ t => Good t) (fun _ t => Good t)
      (freshSlot node) := by
  intro Good
  have hannounced := run_announced node pre
  have hpre : wp (runInputs node.step pre)
      (fun _ s => Path node (fun _ => True) True (fun _ => True) False (freshSlot node) s)
      (CrashFrom node (fun _ => True) True (fun _ => True) (freshSlot node)) (freshSlot node) :=
    runInputs_spec rest_freshSlot pre fun pre' i post' s heq =>
      inputOk_of_signed hsigned (by rw [heq, List.append_assoc, List.cons_append])
  rw [wp_runInputs_append]
  unfold wp at hpre ⊢
  cases hrun : runInputs node.step pre (freshSlot node) with
  | error e s =>
    have hslot : node.slotAfter pre = s := by simp [Node.slotAfter, Node.run, hrun]
    rw [hslot] at hphase hannounced
    exact fun x hx => absurd (hannounced x hx).1 hphase
  | ok _ s =>
    rw [hrun] at hpre
    have hslot : node.slotAfter pre = s := by simp [Node.slotAfter, Node.run, hrun]
    rw [hslot] at hphase
    have hrest : Rest node (fun _ => True) True s := hpre.rest rest_freshSlot
    have hpost := runInputs_spec (R := fun _ => True) hrest post fun pre' i post' s' heq hrun' hpath =>
      inputOk_of_signed hsigned (by rw [heq, List.append_assoc])
        ((runInputs_append_of_ok pre' hrun).trans hrun') (hpre.trans hpath)
    refine wp_mono hpost (fun _ t hpath => ?_) fun e t hcrash => ?_
    · intro x hx
      rw [hslot]
      exact (hpath.accepted hrest hphase).announced x hx
    · obtain ⟨u, hpath, hcrash⟩ := hcrash
      intro x hx
      rw [hcrash.externalized] at hx
      obtain ⟨n, hn, hpass⟩ := (hpath.accepted hrest hphase).announced x hx
      exact ⟨n, hslot ▸ hn, hpass.mono hcrash.log_isPrefix⟩

/-- **External validity.** In every run of every node, whatever is received and proposed, what is
announced is something that the driver was asked about and did not reject. If nobody else signs for
the node, then it was asked when the node came to externalize, however it answered before. -/
theorem announced_accepted (node : Node) (inputs : List Input) :
    ∀ x ∈ externalized (node.slotAfter inputs).log,
      (∃ n, node.Passes (node.slotAfter inputs).log n x) ∧
      (node.OwnSigned inputs → ∀ pre post, inputs = pre ++ post →
        (node.slotAfter pre).mPhase ≠ .EXTERNALIZE →
          ∃ n ≥ (node.slotAfter pre).log.length, node.Passes (node.slotAfter inputs).log n x) := by
  intro x hx
  refine ⟨announced_passes node inputs x hx, fun hsigned pre post heq hphase => ?_⟩
  subst heq
  have hrun := wp_run_passes hsigned hphase
  unfold wp at hrun
  unfold Node.slotAfter Node.run at hx ⊢
  cases hend : runInputs node.step (pre ++ post) (freshSlot node) with
  | ok _ t =>
    rw [hend] at hrun hx
    exact hrun x hx
  | error e t =>
    rw [hend] at hrun hx
    exact hrun x hx

/-- The listener with a driver that rejects every value when the node is about to externalize. -/
def lateListener : Node :=
  { listener with
    validateValue := fun n _ => if n < 31 then .kFullyValidatedValue else .kInvalidValue }

/-- The listener is asked again after the third input; the driver that rejects the value then stops
it. -/
theorem announced_accepted_listener :
    [1] ∈ externalized (listener.slotAfter runToExternalize).log ∧
    (listener.slotAfter (runToExternalize.take 3)).mPhase ≠ .EXTERNALIZE ∧
    (∃ n ≥ (listener.slotAfter (runToExternalize.take 3)).log.length,
      listener.Passes (listener.slotAfter runToExternalize).log n [1]) ∧
    lateListener.faultAfter (runToExternalize.take 3) = none ∧
    lateListener.faultAfter runToExternalize = some .badState ∧
    externalized (lateListener.slotAfter runToExternalize).log = [] := by
  have hmem : [1] ∈ externalized (listener.slotAfter runToExternalize).log := by decide +kernel
  have hphase : (listener.slotAfter (runToExternalize.take 3)).mPhase ≠ .EXTERNALIZE := by
    decide +kernel
  obtain ⟨-, hlater⟩ := announced_accepted listener runToExternalize [1] hmem
  exact ⟨hmem, hphase, hlater ownSigned_runToExternalize _ (runToExternalize.drop 3)
    (List.take_append_drop 3 _).symm hphase, by decide +kernel, by decide +kernel, by decide +kernel⟩

end SmartCore.SCP
