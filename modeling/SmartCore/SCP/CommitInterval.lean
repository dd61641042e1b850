import Mathlib.Order.Bounds.Defs
import SmartCore.SCP.Recursion

/-!
# The interval to commit

`findExtendedInterval` goes down the boundaries once. It takes the highest one that satisfies the
predicate alone as the high end, and then lowers the low end until the predicate fails. If the
predicate holds of every part of an interval that it holds of, nothing is missed, and it is so with the
predicates of `attemptAcceptCommit` and `attemptConfirmCommit`.
-/

namespace SmartCore.SCP

variable {pred : Interval → Bool} {boundaries : List Uint32} {l h b : Uint32}

/-- Of a part of an interval, the predicate holds too. -/
def ClosedUnderParts (pred : Interval → Bool) : Prop :=
  ∀ a b c d : Uint32, a ≤ c → c ≤ d → d ≤ b → pred (a, b) = true → pred (c, d) = true

/-- From the high end down to `l`, all boundaries can be low ends. -/
def Reaches (pred : Interval → Bool) (S : Set Uint32) (h l : Uint32) : Prop :=
  l ∈ S ∧ l ≤ h ∧ ∀ b ∈ S, l ≤ b → b ≤ h → pred (b, h) = true

/-- The best interval: its high end is the highest boundary that satisfies the predicate alone, its low
end the lowest one that is reached. -/
structure IsBest (pred : Interval → Bool) (S : Set Uint32) (i : Interval) : Prop where
  high : IsGreatest {b | b ∈ S ∧ pred (b, b) = true} i.2
  low : IsLeast {l | Reaches pred S i.2 l} i.1

/-! ## The search -/

/-- With a high end, the low end goes down as far as the predicate holds. -/
theorem findExtendedInterval_extend (hb : (l :: boundaries).Pairwise (· > ·)) (hle : l ≤ h)
    (hl : pred (l, h) = true) :
    (findExtendedInterval pred boundaries (l, h)).2 = h ∧
      IsLeast {l' | l' ∈ l :: boundaries ∧ ∀ b ∈ l :: boundaries, l' ≤ b → pred (b, h) = true}
        (findExtendedInterval pred boundaries (l, h)).1 := by
  induction boundaries generalizing l with
  | nil =>
    refine ⟨rfl, ⟨List.mem_cons_self, fun b hbm _ => ?_⟩, fun l' hl' => ?_⟩
    · rwa [List.mem_singleton.mp hbm]
    · exact (List.mem_singleton.mp hl'.1).ge
  | cons b boundaries ih =>
    obtain ⟨hlt, hrest⟩ := List.pairwise_cons.mp hb
    have hbl : b < l := hlt b List.mem_cons_self
    have hl0 : l ≠ 0 := fun h0 => absurd hbl (by rw [h0]; exact not_lt_bot)
    unfold findExtendedInterval
    rw [if_neg hl0, if_neg (not_lt.mpr (hbl.le.trans hle))]
    by_cases hp : pred (b, h) = true
    · rw [if_pos hp]
      obtain ⟨hhigh, ⟨hmem, hall⟩, hleast⟩ := ih hrest (hbl.le.trans hle) hp
      refine ⟨hhigh, ⟨List.mem_cons_of_mem l hmem, fun b' hb' hle' => ?_⟩, fun l' hl' => ?_⟩
      · rcases List.mem_cons.mp hb' with rfl | hb'
        · exact hl
        · exact hall b' hb' hle'
      · rcases List.mem_cons.mp hl'.1 with rfl | hmem'
        · -- what is reached is not above the boundary that was just passed
          have hself : b ≤ b := le_refl b
          refine (hleast ⟨List.mem_cons_self, fun b' hb' hle' => ?_⟩).trans hbl.le
          rcases List.mem_cons.mp hb' with rfl | hb''
          · exact hp
          · exact absurd hle' (not_le.mpr ((List.pairwise_cons.mp hrest).1 b' hb''))
        · exact hleast ⟨hmem', fun b' hb' => hl'.2 b' (List.mem_cons_of_mem l hb')⟩
    · rw [if_neg hp]
      refine ⟨rfl, ⟨List.mem_cons_self, fun b' hb' hle' => ?_⟩, fun l' hl' => ?_⟩
      · rcases List.mem_cons.mp hb' with rfl | hb'
        · exact hl
        · exact absurd hle' (not_le.mpr (hlt b' hb'))
      · rcases List.mem_cons.mp hl'.1 with rfl | hmem
        · exact le_refl _
        · have hle' : l' ≤ b := by
            rcases List.mem_cons.mp hmem with rfl | hmem
            · exact le_refl _
            · exact ((List.pairwise_cons.mp hrest).1 l' hmem).le
          exact absurd (hl'.2 b (by simp) hle') hp

/-- The search finds the best interval, or nothing if no boundary satisfies the predicate. -/
theorem isBest_findExtendedInterval (hb : boundaries.Pairwise (· > ·)) :
    ((∀ b ∈ boundaries, pred (b, b) = false) ∧
        findExtendedInterval pred boundaries (0, 0) = (0, 0)) ∨
      IsBest pred {b | b ∈ boundaries} (findExtendedInterval pred boundaries (0, 0)) := by
  induction boundaries with
  | nil => exact Or.inl ⟨nofun, rfl⟩
  | cons b boundaries ih =>
    obtain ⟨hlt, hrest⟩ := List.pairwise_cons.mp hb
    unfold findExtendedInterval
    rw [if_pos rfl]
    by_cases hp : pred (b, b) = true
    · rw [if_pos hp]
      right
      obtain ⟨hhigh, ⟨hmem, hall⟩, hleast⟩ := findExtendedInterval_extend hb (le_refl b) hp
      have htop : ∀ b' ∈ b :: boundaries, b' ≤ b := by
        intro b' hb'
        rcases List.mem_cons.mp hb' with rfl | hb'
        · exact le_refl _
        · exact (hlt b' hb').le
      constructor
      · rw [hhigh]
        exact ⟨⟨List.mem_cons_self, hp⟩, fun b' hb' => htop b' hb'.1⟩
      · rw [hhigh]
        exact ⟨⟨hmem, htop _ hmem, fun b' hb' hle _ => hall b' hb' hle⟩,
          fun l' hl' => hleast ⟨hl'.1, fun b' hb' hle => hl'.2.2 b' hb' hle (htop b' hb')⟩⟩
    · rw [if_neg hp]
      rcases ih hrest with ⟨hnone, heq⟩ | ⟨hhigh, hlow⟩
      · exact Or.inl ⟨List.forall_mem_cons.mpr ⟨by simpa using hp, hnone⟩, heq⟩
      · -- the first boundary is above the high end, and does not satisfy the predicate
        have hbelow : (findExtendedInterval pred boundaries (0, 0)).2 < b := hlt _ hhigh.1.1
        refine Or.inr ⟨⟨⟨List.mem_cons_of_mem b hhigh.1.1, hhigh.1.2⟩, ?_⟩, ⟨?_, ?_⟩⟩
        · rintro b' ⟨hb', hp'⟩
          rcases List.mem_cons.mp hb' with rfl | hb'
          · exact absurd hp' hp
          · exact hhigh.2 ⟨hb', hp'⟩
        · obtain ⟨hmem, hle, hall⟩ := hlow.1
          refine ⟨List.mem_cons_of_mem b hmem, hle, fun b' hb' hle' hle'' => ?_⟩
          rcases List.mem_cons.mp hb' with rfl | hb'
          · exact absurd hle'' (not_le.mpr hbelow)
          · exact hall b' hb' hle' hle''
        · rintro l' ⟨hmem, hle, hall⟩
          rcases List.mem_cons.mp hmem with rfl | hmem
          · exact absurd hle (not_le.mpr hbelow)
          · exact hlow.2 ⟨hmem, hle, fun b' hb' => hall b' (List.mem_cons_of_mem b hb')⟩

/-- With a closed predicate, what is reached is what satisfies the predicate. -/
theorem reaches_iff (hclosed : ClosedUnderParts pred) {S : Set Uint32} :
    Reaches pred S h l ↔ l ∈ S ∧ l ≤ h ∧ pred (l, h) = true := by
  constructor
  · rintro ⟨hmem, hle, hall⟩
    exact ⟨hmem, hle, hall l hmem (le_refl l) hle⟩
  · rintro ⟨hmem, hle, hp⟩
    exact ⟨hmem, hle, fun b _ hlb hbh => hclosed l h b h hlb hbh (le_refl h) hp⟩

/-! ## What the statements say -/

/-- The counters of the value that a statement votes to commit (`PREPARE`) or has accepted. -/
def commitInterval (ballot : SCPBallot) (st : SCPStatement) : Option Interval :=
  match st.pledges with
  | .prepare p =>
    if areBallotsCompatible ballot p.ballot ∧ p.nC ≠ 0 then some (p.nC, p.nH) else none
  | .confirm c => if areBallotsCompatible ballot c.ballot then some (c.nCommit, c.nH) else none
  | .externalize e =>
    if areBallotsCompatible ballot e.commit then some (e.commit.counter, UINT32_MAX) else none

/-- Whether a statement says so of all counters of `cur`. -/
def commitsTo (ballot : SCPBallot) (cur : Interval) (st : SCPStatement) : Bool :=
  match st.pledges with
  | .prepare _ => votesToCommit ballot cur st
  | _ => commitPredicate ballot cur st

theorem commitsTo_iff {ballot : SCPBallot} {cur : Interval} {st : SCPStatement} :
    commitsTo ballot cur st = true ↔
      ∃ i, commitInterval ballot st = some i ∧ i.1 ≤ cur.1 ∧ cur.2 ≤ i.2 := by
  unfold commitsTo commitInterval votesToCommit commitPredicate
  cases st.pledges with
  | prepare p => by_cases hc : areBallotsCompatible ballot p.ballot <;> simp [hc, and_assoc]
  | confirm c => by_cases hc : areBallotsCompatible ballot c.ballot <;> simp [hc]
  | externalize e =>
    have hmax : cur.2 ≤ UINT32_MAX := Fin.le_last _
    by_cases hc : areBallotsCompatible ballot e.commit <;> simp [hc, hmax]

/-- The ends of the interval are boundaries, and the only other one is the highest counter of an
`EXTERNALIZE`. -/
theorem mem_commitBoundaries_iff {ballot : SCPBallot} {st : SCPStatement} :
    b ∈ commitBoundaries ballot st ↔
      ∃ i, commitInterval ballot st = some i ∧
        (b = i.1 ∨ b = i.2 ∨ ∃ e, st.pledges = .externalize e ∧ b = e.nH) := by
  unfold commitBoundaries commitInterval
  cases st.pledges with
  | prepare p =>
    by_cases hc : areBallotsCompatible ballot p.ballot = true ∧ p.nC ≠ 0
    · simp [hc]
    · dsimp only
      rw [if_neg hc, if_neg hc]
      simp
  | confirm c => by_cases hc : areBallotsCompatible ballot c.ballot <;> simp [hc]
  | externalize e =>
    by_cases hc : areBallotsCompatible ballot e.commit
    · simp [hc, or_comm, or_left_comm]
    · simp [hc]

theorem mem_boundaries_iff {envs : EnvelopeMap} {ballot : SCPBallot} :
    b ∈ getCommitBoundariesFromStatements envs ballot ↔
      ∃ (n : NodeID) (env : SCPEnvelope) (i : Interval), envs[n]? = some env ∧
        commitInterval ballot env.statement = some i ∧
        (b = i.1 ∨ b = i.2 ∨ ∃ e, env.statement.pledges = .externalize e ∧ b = e.nH) := by
  rw [← Std.ExtTreeSet.mem_toList, ← List.mem_reverse, mem_commitBoundaries]
  simp only [mem_commitBoundaries_iff, exists_and_left]

section Closed

variable {node : Node} {envs : EnvelopeMap} {ballot : SCPBallot} {st : SCPStatement}
  {cur cur' : Interval}

end Closed

/-- **`findExtendedInterval` finds the best interval**: from the highest boundary that satisfies the
predicate down to the lowest one with which the predicate still holds, which is the lowest that is
reached. The boundaries are the ends of the statements' intervals, and what a statement says of an
interval is that it is within its own. -/
theorem findExtendedInterval_best :
    (∀ (boundaries : Std.ExtTreeSet Uint32) (pred : Interval → Bool), ClosedUnderParts pred →
      ((∀ b ∈ boundaries, pred (b, b) = false) ∧
          findExtendedInterval pred boundaries.toList.reverse (0, 0) = (0, 0)) ∨
        IsBest pred {b | b ∈ boundaries}
          (findExtendedInterval pred boundaries.toList.reverse (0, 0)) ∧
        ∀ l ∈ boundaries,
          l ≤ (findExtendedInterval pred boundaries.toList.reverse (0, 0)).2 →
          pred (l, (findExtendedInterval pred boundaries.toList.reverse (0, 0)).2) = true →
          (findExtendedInterval pred boundaries.toList.reverse (0, 0)).1 ≤ l) ∧
    (∀ (envs : EnvelopeMap) (ballot : SCPBallot) (b : Uint32),
      b ∈ getCommitBoundariesFromStatements envs ballot ↔
        ∃ (n : NodeID) (env : SCPEnvelope) (i : Interval), envs[n]? = some env ∧
          commitInterval ballot env.statement = some i ∧
          (b = i.1 ∨ b = i.2 ∨ ∃ e, env.statement.pledges = .externalize e ∧ b = e.nH)) ∧
    (∀ (ballot : SCPBallot) (cur : Interval) (st : SCPStatement),
      commitsTo ballot cur st = true ↔
        ∃ i, commitInterval ballot st = some i ∧ i.1 ≤ cur.1 ∧ cur.2 ≤ i.2) := by
  refine ⟨fun boundaries pred hclosed => ?_, fun envs ballot b => mem_boundaries_iff,
    fun ballot cur st => commitsTo_iff⟩
  have hsorted : boundaries.toList.reverse.Pairwise (· > ·) := by
    rw [List.pairwise_reverse]
    exact Std.ExtTreeSet.ordered_toList.imp fun h => compare_lt_iff_lt.mp h
  have hmem (b : Uint32) : b ∈ boundaries.toList.reverse ↔ b ∈ boundaries := by
    rw [List.mem_reverse, Std.ExtTreeSet.mem_toList]
  rcases (isBest_findExtendedInterval hsorted : _ ∨ IsBest pred _ _) with ⟨hnone, heq⟩ | hbest
  · exact Or.inl ⟨fun b hb => hnone b ((hmem b).mpr hb), heq⟩
  · simp only [hmem] at hbest
    exact Or.inr ⟨hbest, fun l hl hle hp => hbest.low.2 ((reaches_iff hclosed).mpr ⟨hl, hle, hp⟩)⟩

def someBoundaries : Std.ExtTreeSet Uint32 := Std.ExtTreeSet.ofList ([2, 3, 5, 7, 9] : List Uint32)

/-- The predicate holds within 3 to 7. -/
theorem findExtendedInterval_best_example :
    IsBest (fun i => decide (3 ≤ i.1 ∧ i.2 ≤ 7)) {b | b ∈ someBoundaries}
      (findExtendedInterval (fun i => decide (3 ≤ i.1 ∧ i.2 ≤ 7))
        someBoundaries.toList.reverse (0, 0)) := by
  have hclosed : ClosedUnderParts fun i => decide (3 ≤ i.1 ∧ i.2 ≤ 7) := by
    intro a b c d hac _ hdb h
    simp only [decide_eq_true_eq] at h ⊢
    exact ⟨h.1.trans hac, hdb.trans h.2⟩
  rcases findExtendedInterval_best.1 someBoundaries _ hclosed with
    ⟨hnone, -⟩ | hbest
  · have h5 := hnone 5 (by simp [someBoundaries, Std.ExtTreeSet.mem_ofList])
    exact absurd h5 (by decide)
  · exact hbest.1

end SmartCore.SCP
