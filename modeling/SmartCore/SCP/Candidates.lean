import SmartCore.SCP.BallotProtocol

/-!
# What the searches find

The searches of the ballot protocol, each with the description of its answer that the later
proofs use:

* `mem_getPrepareCandidates`: which ballots are candidates for a hint,
* `findNewH_spec`: the new `h` is the highest confirmed candidate above the old one,
* `findNewC_spec`: the new `c` is the lowest candidate of the unbroken run of confirmed
  candidates from `h` down to `b`, and
* `findExtendedInterval_spec`: an interval the search returns satisfies the predicate.
-/

namespace SmartCore.SCP

/-! ## Candidates -/

theorem mem_getPrepareCandidates {envs : EnvelopeMap} {hint : SCPStatement} {ballot : SCPBallot} :
    ballot ∈ getPrepareCandidates envs hint ↔
      ∃ topVote ∈ hintBallots hint, ∃ (n : NodeID) (env : SCPEnvelope), envs[n]? = some env ∧
        ballot ∈ candidatesFrom topVote env.statement := by
  simp [getPrepareCandidates, Std.ExtTreeSet.mem_ofList, Std.ExtTreeSet.mem_toList,
    Std.ExtTreeMap.mem_toList_iff_getElem?_eq_some]

theorem mem_candidatesDesc {envs : EnvelopeMap} {hint : SCPStatement} {ballot : SCPBallot} :
    ballot ∈ candidatesDesc envs hint ↔ ballot ∈ getPrepareCandidates envs hint := by
  simp [candidatesDesc, Std.ExtTreeSet.mem_toList]

theorem candidatesDesc_pairwise (envs : EnvelopeMap) (hint : SCPStatement) :
    (candidatesDesc envs hint).Pairwise (· > ·) := by
  unfold candidatesDesc
  rw [List.pairwise_reverse]
  exact Std.ExtTreeSet.ordered_toList.imp fun h => compare_lt_iff_lt.mp h

/-- The ballots a statement mentions, as candidates see them. -/
def mentioned (st : SCPStatement) : List SCPBallot :=
  match st.pledges with
  | .prepare p => [p.ballot] ++ p.prepared.toList ++ p.preparedPrime.toList
  | .confirm c => [c.ballot]
  | .externalize e => [e.commit]

/-- Every candidate carries the value of a ballot of the statement it comes from, and a
candidate from a `PREPARE` is one of its ballots. -/
theorem candidatesFrom_mentioned {topVote ballot : SCPBallot} {st : SCPStatement}
    (h : ballot ∈ candidatesFrom topVote st) :
    ∃ β ∈ mentioned st, β.value = ballot.value ∧ ((∃ p, st.pledges = .prepare p) → β = ballot) := by
  cases hpl : st.pledges with
  | prepare p =>
    simp only [candidatesFrom, mentioned, hpl] at h ⊢
    exact ⟨ballot, (List.mem_filter.mp h).1, rfl, fun _ => rfl⟩
  | confirm c =>
    simp only [candidatesFrom, mentioned, hpl] at h ⊢
    refine ⟨c.ballot, by simp, ?_, by simp⟩
    split_ifs at h with hcompat hlt
    · rcases List.mem_pair.mp h with rfl | rfl <;> simp_all
    · simp_all
    · simp at h
  | externalize e =>
    simp only [candidatesFrom, mentioned, hpl] at h ⊢
    refine ⟨e.commit, by simp, ?_, by simp⟩
    split_ifs at h with hcompat <;> simp_all

theorem candidatesFrom_le {topVote ballot : SCPBallot} {st : SCPStatement}
    (h : ballot ∈ candidatesFrom topVote st) :
    ballot ≤ topVote ∧ ballot.value = topVote.value := by
  unfold candidatesFrom at h
  split at h
  · simpa using (List.mem_filter.mp h).2
  · split_ifs at h with hcompat hlt
    · rcases List.mem_pair.mp h with rfl | rfl
      · simp
      · exact ⟨SCPBallot.le_of_counter_le rfl hlt.le, rfl⟩
    · simp_all
    · simp at h
  · split_ifs at h with hcompat
    · simp_all
    · simp at h

/-- A non-empty list has a lowest ballot. -/
theorem exists_lowest {l : List SCPBallot} (hl : l ≠ []) : ∃ β ∈ l, ∀ γ ∈ l, β ≤ γ := by
  induction l with
  | nil => exact absurd rfl hl
  | cons a l ih =>
    by_cases hnil : l = []
    · exact ⟨a, by simp, by simp [hnil]⟩
    · obtain ⟨β, hβ, hlow⟩ := ih hnil
      refine ⟨min a β, ?_, fun γ hγ => ?_⟩
      · rcases min_choice a β with h | h <;> simp [h, hβ]
      · rcases List.mem_cons.mp hγ with rfl | hγ
        · exact min_le_left _ _
        · exact (min_le_right _ _).trans (hlow γ hγ)

/-- A hint that may lead to a commit names a ballot of the value to commit. -/
theorem exists_topVote {hint : SCPStatement} {ballot : SCPBallot}
    (h : commitBallot hint = some ballot) :
    ∃ τ ∈ hintBallots hint, τ.value = ballot.value ∧ candidatesFrom τ hint ≠ [] := by
  cases hpl : hint.pledges with
  | prepare p =>
    simp only [commitBallot, hintBallots, candidatesFrom, hpl] at h ⊢
    split_ifs at h with hc
    obtain rfl := Option.some.inj h
    refine ⟨p.ballot, by simp, rfl, List.ne_nil_of_mem (a := p.ballot) ?_⟩
    simp
  | confirm c =>
    simp only [commitBallot, hintBallots, candidatesFrom, hpl, Option.some.injEq] at h ⊢
    subst h
    refine ⟨⟨c.nPrepared, c.ballot.value⟩, by simp, rfl, ?_⟩
    simp
  | externalize e =>
    simp only [commitBallot, hintBallots, candidatesFrom, hpl, Option.some.injEq] at h ⊢
    subst h
    exact ⟨⟨UINT32_MAX, e.commit.value⟩, by simp, rfl, by simp⟩

/-- Below every counter a node can vote to commit there is a candidate that it has prepared, or
votes to prepare: the votes for a commit are votes to prepare the lowest candidate. -/
theorem exists_accepted_candidate {node : Node} {envs : EnvelopeMap} {hint : SCPStatement}
    {ballot : SCPBallot} {cur : Interval} {env₀ : SCPEnvelope}
    (hrec : envs[hint.nodeID]? = some env₀) (hst : env₀.statement = hint)
    (hb : commitBallot hint = some ballot)
    (hacc : node.federatedAccept (votesToCommit ballot cur) (commitPredicate ballot cur) envs =
      true) :
    ∃ β ∈ getPrepareCandidates envs hint,
      node.federatedAccept (votesToPrepare β) (hasPreparedBallot β) envs = true := by
  obtain ⟨τ, hτ, hval, hne⟩ := exists_topVote hb
  obtain ⟨δ, hδ⟩ := List.exists_mem_of_ne_nil _ hne
  have hmem : δ ∈ envs.toList.flatMap fun e => candidatesFrom τ e.2.statement := by
    rw [List.mem_flatMap]
    exact ⟨(hint.nodeID, env₀), Std.ExtTreeMap.mem_toList_iff_getElem?_eq_some.mpr hrec,
      by rw [hst]; exact hδ⟩
  obtain ⟨β, hβ, hlow⟩ := exists_lowest (List.ne_nil_of_mem hmem)
  -- `β` is the lowest candidate below `τ`
  have hfrom : ∃ (n : NodeID) (env : SCPEnvelope), envs[n]? = some env ∧
      β ∈ candidatesFrom τ env.statement := by
    obtain ⟨⟨n, env⟩, he, hc⟩ := List.mem_flatMap.mp hβ
    exact ⟨n, env, Std.ExtTreeMap.mem_toList_iff_getElem?_eq_some.mp he, hc⟩
  have hlowest : ∀ (n : NodeID) (env : SCPEnvelope) (γ : SCPBallot), envs[n]? = some env →
      γ ∈ candidatesFrom τ env.statement → β ≤ γ := fun n env γ henv hγ =>
    hlow γ (List.mem_flatMap.mpr
      ⟨(n, env), Std.ExtTreeMap.mem_toList_iff_getElem?_eq_some.mpr henv, hγ⟩)
  obtain ⟨hle, hβv⟩ : β ≤ τ ∧ β.value = τ.value := by
    obtain ⟨n, env, -, hc⟩ := hfrom
    exact candidatesFrom_le hc
  -- a node in CONFIRM for that value has prepared it
  have hconfirm : ∀ (n : NodeID) (env : SCPEnvelope) (c : Confirm), envs[n]? = some env →
      env.statement.pledges = .confirm c → ballot.value = c.ballot.value →
      hasPreparedBallot β env.statement = true := by
    intro n env c henv hpl hv
    have hτc : τ.value = c.ballot.value := hval.trans hv
    simp only [hasPreparedBallot, hpl, areBallotsLessAndCompatible_iff]
    refine ⟨?_, hβv.trans hτc⟩
    by_cases hlt : c.nPrepared < τ.counter
    · have hγ : (⟨c.nPrepared, τ.value⟩ : SCPBallot) ∈ candidatesFrom τ env.statement := by
        simp [candidatesFrom, hpl, hτc, hlt]
      rw [← hτc]
      exact hlowest n env _ henv hγ
    · exact hle.trans (SCPBallot.le_of_counter_le hτc (not_lt.mp hlt))
  refine ⟨β, mem_getPrepareCandidates.mpr ⟨τ, hτ, hfrom⟩, ?_⟩
  refine federatedAccept_mono (fun n env henv ha => ?_) (fun n env henv hv => ?_) hacc
  · cases hpl : env.statement.pledges with
    | prepare p => simp [commitPredicate, hpl] at ha
    | confirm c =>
      simp only [commitPredicate, hpl, Bool.and_eq_true, areBallotsCompatible_iff] at ha
      exact hconfirm n env c henv hpl ha.1
    | externalize e =>
      simp only [commitPredicate, hpl, Bool.and_eq_true, areBallotsCompatible_iff] at ha
      simp [hasPreparedBallot, hpl, hβv, hval, ha.1]
  · cases hpl : env.statement.pledges with
    | prepare p =>
      simp only [votesToCommit, hpl, Bool.and_eq_true, areBallotsCompatible_iff] at hv
      have hτp : τ.value = p.ballot.value := hval.trans hv.1.1
      rw [Bool.or_eq_true]
      right
      simp only [votesToPrepare, hpl, areBallotsLessAndCompatible_iff]
      refine ⟨?_, hβv.trans hτp⟩
      rcases le_total p.ballot τ with h | h
      · refine hlowest n env _ henv ?_
        simp [candidatesFrom, hpl, h, hτp]
      · exact hle.trans h
    | confirm c =>
      simp only [votesToCommit, hpl, Bool.and_eq_true, areBallotsCompatible_iff] at hv
      simp [hconfirm n env c henv hpl hv.1]
    | externalize e =>
      simp only [votesToCommit, hpl, Bool.and_eq_true, areBallotsCompatible_iff] at hv
      simp [hasPreparedBallot, hpl, hβv, hval, hv.1]

/-! ## The new `h` -/

theorem findNewH_spec {h : Option SCPBallot} {ratified : SCPBallot → Bool} {l : List SCPBallot}
    {newH : SCPBallot} {below : List SCPBallot} (hl : l.Pairwise (· > ·))
    (hf : findNewH h ratified l = some (newH, below)) :
    newH ∈ l ∧ ratified newH = true ∧ (∀ h₀, h = some h₀ → h₀ < newH) ∧
      (∀ γ ∈ l, newH < γ → ratified γ = false) ∧
      (∀ γ, γ ∈ newH :: below ↔ γ ∈ l ∧ γ ≤ newH) := by
  induction l with
  | nil => simp [findNewH] at hf
  | cons ballot rest ih =>
    obtain ⟨hlt, hrest⟩ := List.pairwise_cons.mp hl
    unfold findNewH at hf
    split_ifs at hf with habove hrat
    · obtain ⟨rfl, rfl⟩ : ballot = newH ∧ rest = below := by simpa using hf
      refine ⟨by simp, hrat, ?_, ?_, ?_⟩
      · rintro h₀ rfl
        simpa using habove
      · intro γ hγ hgt
        rcases List.mem_cons.mp hγ with rfl | hγ
        · exact absurd hgt (lt_irrefl _)
        · exact absurd (hlt γ hγ) (not_lt_of_gt hgt)
      · intro γ
        refine ⟨fun hγ => ⟨hγ, ?_⟩, fun hγ => hγ.1⟩
        rcases List.mem_cons.mp hγ with rfl | hγ
        · exact le_rfl
        · exact (hlt γ hγ).le
    · obtain ⟨hmem, hr, hab, hhigh, hbelow⟩ := ih hrest hf
      refine ⟨by simp [hmem], hr, hab, ?_, ?_⟩
      · intro γ hγ hgt
        rcases List.mem_cons.mp hγ with rfl | hγ
        · simpa using hrat
        · exact hhigh γ hγ hgt
      · intro γ
        rw [hbelow γ]
        constructor
        · rintro ⟨hγ, hle⟩
          exact ⟨by simp [hγ], hle⟩
        · rintro ⟨hγ, hle⟩
          rcases List.mem_cons.mp hγ with rfl | hγ
          · exact absurd (hlt newH hmem) (not_lt_of_ge hle)
          · exact ⟨hγ, hle⟩

theorem findNewH_sublist {h : Option SCPBallot} {ratified : SCPBallot → Bool}
    {l : List SCPBallot} {newH : SCPBallot} {below : List SCPBallot}
    (hf : findNewH h ratified l = some (newH, below)) : (newH :: below).Sublist l := by
  induction l with
  | nil => simp [findNewH] at hf
  | cons ballot rest ih =>
    unfold findNewH at hf
    split_ifs at hf with habove hrat
    · obtain ⟨rfl, rfl⟩ : ballot = newH ∧ rest = below := by simpa using hf
      exact List.Sublist.refl _
    · exact (ih hf).cons ballot

/-! ## The new `c` -/

/-- The candidates in `l` from `β` up are all ratified, and `β` is one of them, not below `b`. -/
def InRun (b : SCPBallot) (ratified : SCPBallot → Bool) (l : List SCPBallot) (β : SCPBallot) :
    Prop :=
  β ∈ l ∧ b ≤ β ∧ ∀ γ ∈ l, β ≤ γ → ratified γ = true

/-- Either the search does not find anything and keeps `newC`, or it ends on the lowest ballot of
the run. -/
theorem findNewC_spec {b : SCPBallot} {ratified : SCPBallot → Bool} {l : List SCPBallot}
    (hl : l.Pairwise (· > ·)) (newC : SCPBallot) :
    (findNewC b ratified l newC = newC ∧ ∀ β, ¬ InRun b ratified l β) ∨
      (InRun b ratified l (findNewC b ratified l newC) ∧
        ∀ β, InRun b ratified l β → findNewC b ratified l newC ≤ β) := by
  induction l generalizing newC with
  | nil => simp [findNewC, InRun]
  | cons ballot rest ih =>
    obtain ⟨hlt, hrest⟩ := List.pairwise_cons.mp hl
    have hhead : ∀ β ∈ ballot :: rest, β ≤ ballot := by
      intro β hβ
      rcases List.mem_cons.mp hβ with rfl | hβ
      · exact le_rfl
      · exact (hlt β hβ).le
    unfold findNewC
    split_ifs with hb hr
    · left
      refine ⟨rfl, fun β hβ => ?_⟩
      exact absurd (hβ.2.1.trans (hhead β hβ.1)) (not_le_of_gt (by simpa using hb))
    · right
      have hrun : InRun b ratified (ballot :: rest) ballot := by
        refine ⟨by simp, by simpa using hb, fun γ hγ hle => ?_⟩
        obtain rfl : γ = ballot := le_antisymm (hhead γ hγ) hle
        exact hr
      have hiff : ∀ β, InRun b ratified rest β ↔ InRun b ratified (ballot :: rest) β ∧ β ∈ rest := by
        intro β
        constructor
        · rintro ⟨hmem, hbβ, hall⟩
          refine ⟨⟨by simp [hmem], hbβ, fun γ hγ hle => ?_⟩, hmem⟩
          rcases List.mem_cons.mp hγ with rfl | hγ
          · exact hr
          · exact hall γ hγ hle
        · rintro ⟨⟨-, hbβ, hall⟩, hmem⟩
          exact ⟨hmem, hbβ, fun γ hγ hle => hall γ (by simp [hγ]) hle⟩
      rcases ih hrest ballot with ⟨heq, hnone⟩ | ⟨hin, hleast⟩
      · rw [heq]
        refine ⟨hrun, fun β hβ => ?_⟩
        rcases List.mem_cons.mp hβ.1 with rfl | hmem
        · exact le_rfl
        · exact absurd ((hiff β).mpr ⟨hβ, hmem⟩) (hnone β)
      · refine ⟨((hiff _).mp hin).1, fun β hβ => ?_⟩
        rcases List.mem_cons.mp hβ.1 with rfl | hmem
        · exact (hlt _ hin.1).le
        · exact hleast β ((hiff β).mpr ⟨hβ, hmem⟩)
    · left
      refine ⟨rfl, fun β hβ => ?_⟩
      exact absurd (hβ.2.2 ballot (by simp) (hhead β hβ.1)) (by simpa using hr)

/-! ## Intervals -/

/-- An interval is a proper result of the search: it starts above zero, its ends are in order,
and it satisfies the predicate. -/
def GoodInterval (pred : Interval → Bool) (i : Interval) : Prop :=
  i.1 ≠ 0 → i.1 ≤ i.2 ∧ pred i = true

theorem findExtendedInterval_spec {pred : Interval → Bool} {boundaries : List Uint32}
    (hb : boundaries.Pairwise (· > ·)) {candidate : Interval} (hc : GoodInterval pred candidate)
    (hlow : candidate.1 ≠ 0 → ∀ b ∈ boundaries, b < candidate.1) :
    GoodInterval pred (findExtendedInterval pred boundaries candidate) := by
  induction boundaries generalizing candidate with
  | nil => simpa [findExtendedInterval] using hc
  | cons b boundaries ih =>
    obtain ⟨hlt, hrest⟩ := List.pairwise_cons.mp hb
    unfold findExtendedInterval
    split_ifs with h0 hp hgt hp
    · exact ih hrest (fun _ => ⟨le_rfl, hp⟩) (fun _ => hlt)
    · exact ih hrest hc (fun h => absurd h0 h)
    · exact ih hrest hc (fun h b' hb' => hlow h b' (by simp [hb']))
    · refine ih hrest (fun _ => ⟨?_, hp⟩) (fun _ => hlt)
      exact (hlow h0 b (by simp)).le.trans (hc h0).1
    · exact hc

/-- What is found first, the high end, stays: it is the highest boundary that satisfies the predicate
alone. -/
theorem findExtendedInterval_high {pred : Interval → Bool} {boundaries : List Uint32}
    (hb : boundaries.Pairwise (· > ·)) {candidate : Interval}
    (hne : (findExtendedInterval pred boundaries candidate).1 ≠ 0) :
    (candidate.1 ≠ 0 → (findExtendedInterval pred boundaries candidate).2 = candidate.2) ∧
    (candidate.1 = 0 →
      (findExtendedInterval pred boundaries candidate).2 ∈ boundaries ∧
      pred ((findExtendedInterval pred boundaries candidate).2,
        (findExtendedInterval pred boundaries candidate).2) = true ∧
      ∀ b ∈ boundaries, pred (b, b) = true →
        b ≤ (findExtendedInterval pred boundaries candidate).2) := by
  induction boundaries generalizing candidate with
  | nil => exact ⟨fun _ => rfl, fun h => absurd h hne⟩
  | cons b boundaries ih =>
    obtain ⟨hlt, hrest⟩ := List.pairwise_cons.mp hb
    unfold findExtendedInterval at hne ⊢
    split_ifs at hne ⊢ with h0 hp hgt hp
    · refine ⟨fun h => absurd h0 h, fun _ => ?_⟩
      have hb0 : b ≠ 0 := by
        -- nothing is below zero, so the search would have ended there
        intro hb0
        cases boundaries with
        | nil => exact hne hb0
        | cons b' _ => exact absurd (hlt b' List.mem_cons_self) (by rw [hb0]; exact not_lt_bot)
      have hhigh := (ih hrest hne).1 hb0
      rw [hhigh]
      refine ⟨List.mem_cons_self, hp, fun b' hb' _ => ?_⟩
      rcases List.mem_cons.mp hb' with rfl | hb'
      · exact le_rfl
      · exact (hlt b' hb').le
    · refine ⟨fun h => absurd h0 h, fun _ => ?_⟩
      obtain ⟨hmem, hpred, hmax⟩ := (ih hrest hne).2 h0
      refine ⟨List.mem_cons_of_mem _ hmem, hpred, fun b' hb' hp' => ?_⟩
      rcases List.mem_cons.mp hb' with rfl | hb'
      · exact absurd hp' hp
      · exact hmax b' hb' hp'
    · exact ⟨(ih hrest hne).1, fun h => absurd h h0⟩
    · refine ⟨fun _ => ?_, fun h => absurd h h0⟩
      by_cases hb0 : b = 0
      · cases boundaries with
        | nil => rfl
        | cons b' _ => exact absurd (hlt b' List.mem_cons_self) (by rw [hb0]; exact not_lt_bot)
      · exact (ih hrest hne).1 hb0
    · exact ⟨fun _ => rfl, fun h => absurd h h0⟩

theorem boundariesDesc_pairwise (envs : EnvelopeMap) (ballot : SCPBallot) :
    (getCommitBoundariesFromStatements envs ballot).toList.reverse.Pairwise (· > ·) := by
  rw [List.pairwise_reverse]
  exact Std.ExtTreeSet.ordered_toList.imp fun h => compare_lt_iff_lt.mp h

/-- What both commit searches return. -/
theorem searchInterval_spec (pred : Interval → Bool) (envs : EnvelopeMap) (ballot : SCPBallot) :
    GoodInterval pred (findExtendedInterval pred
      (getCommitBoundariesFromStatements envs ballot).toList.reverse (0, 0)) :=
  findExtendedInterval_spec (boundariesDesc_pairwise envs ballot) (fun h => absurd rfl h)
    (fun h => absurd rfl h)

end SmartCore.SCP
