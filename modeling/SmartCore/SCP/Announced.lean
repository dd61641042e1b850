import SmartCore.SCP.Agreement

/-!
# What a node announces

A slot hands the value it ends with to the node that it belongs to, by a call of
`valueExternalized`. Unlike the state of the slot, that call can be seen from outside.

A node announces only what it has externalized (`run_announced`).
-/

namespace SmartCore.SCP

variable {node : Node} {V : Value → Prop} {F inner : Prop} {R : SCPEnvelope → Prop} {s t : Slot}

/-! ## What is announced -/

/-- A value that was announced is what the slot has ended with. -/
def Announced (s : Slot) : Prop :=
  ∀ x ∈ externalized s.log, s.mPhase = .EXTERNALIZE ∧ s.mCommit.map SCPBallot.value = some x

theorem announced_freshSlot : Announced (freshSlot node) := by
  intro x hx
  cases hx

theorem Announced.of_same (h : Announced s) (hphase : t.mPhase = s.mPhase)
    (hcommit : t.mCommit = s.mCommit) (hlog : externalized t.log = externalized s.log) :
    Announced t := by
  intro x hx
  rw [hlog] at hx
  rw [hphase, hcommit]
  exact h x hx

/-- A node that changes its ballots has not announced anything. -/
theorem Guard.announced {ch : Change} (hg : Guard node V F s ch) (h : Announced s)
    (hlog : externalized t.log = externalized s.log) : Announced t := by
  intro x hx
  rw [hlog] at hx
  exact absurd (h x hx).1 hg.phase_ne

theorem Step.announced (hst : Step node V F R inner s t) (h : Announced s) : Announced t := by
  cases hst with
  | quiet hq =>
    refine h.of_same ?_ ?_ (externalized_quiet hq.log)
    · rw [← ballots_phase, hq.ballots]
      rfl
    · rw [← ballots_c, hq.ballots]
      rfl
  | probe hint => exact h.of_same rfl rfl (by simp [externalized])
  | publish ch env hbump hg hp => exact hg.announced h hp.log.externalized
  | remember env hn => exact h.of_same rfl rfl rfl
  | send env hlast hemit => exact h.of_same rfl rfl (by simp [externalized])
  | externalize v hphase hcommit hnone =>
    obtain ⟨c, hc, hv⟩ := hcommit
    intro x hx
    have hlog :
        externalized (s.logging (.valueExternalized v)).log = externalized s.log ++ [v] := by
      simp [externalized]
    rw [hlog, hnone, List.nil_append, List.mem_singleton] at hx
    refine ⟨hphase, ?_⟩
    show s.mCommit.map SCPBallot.value = some x
    rw [hc, Option.map_some, hv, hx]
  | receive env hin hr =>
    refine h.of_same ?_ ?_ (externalized_quiet hr.quiet)
    · rw [← ballots_phase, hr.ballots]
      rfl
    · rw [← ballots_c, hr.ballots]
      rfl

/-- A node that dies has not announced anything more. -/
theorem Crash.externalized {e : Fault} (hc : Crash node V F s e t) :
    externalized t.log = externalized s.log := by
  cases hc with
  | publish ch hg hp =>
    rcases hp.log with hq | ⟨-, _, -, hlog⟩
    · exact externalized_quiet hq
    · exact hlog.externalized
  | rest hphase hcommit hlog hbad hnull hinv => exact externalized_quiet hlog

theorem Crash.announced {e : Fault} (hc : Crash node V F s e t) (h : Announced s) :
    Announced t := by
  have hlog := hc.externalized
  cases hc with
  | publish ch hg hp => exact hg.announced h hlog
  | rest hphase hcommit hquiet hbad hnull hinv => exact h.of_same hphase hcommit hlog

theorem run_announced (node : Node) (inputs : List Input) : Announced (node.slotAfter inputs) := by
  have hpath : ∀ s, Path node (fun _ => True) False (fun _ => True) False (freshSlot node) s →
      Announced s := by
    intro s h
    exact h.invariant (P := Announced) (fun _ _ hst hs => hst.announced hs) announced_freshSlot
  rcases run_spec_any node inputs with ⟨-, h⟩ | ⟨e, -, u, h, hcrash⟩
  · exact hpath _ h
  · exact hcrash.announced (hpath u h)

end SmartCore.SCP
