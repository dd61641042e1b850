import Mathlib.Data.Multiset.Basic
import SmartCore.SCP.Nomination
import SmartCore.SCP.Order

/-!
# Newer statements

A node's later statement replaces an earlier one only if it is newer. For ballots that is a strict
order in which all statements can be compared that differ in what it looks at, but for two
`EXTERNALIZE`, of which neither is newer than the other. For nominations it is inclusion. The check of
sanity lets a value be listed twice, and inclusion then counts how often.
-/

namespace SmartCore.SCP

/-! ## Ballots -/

/-- What two ballot statements can differ in. A `CONFIRM` has prepared its own value, and an
`EXTERNALIZE` has prepared its own at the highest counter. -/
structure Compared where
  type : Phase
  ballot : SCPBallot
  prepared : Option SCPBallot
  preparedPrime : Option SCPBallot
  nH : Uint32
deriving DecidableEq, Repr

def Pledges.compared : Pledges → Compared
  | .prepare p => ⟨.PREPARE, p.ballot, p.prepared, p.preparedPrime, p.nH⟩
  | .confirm c => ⟨.CONFIRM, c.ballot, some ⟨c.nPrepared, c.ballot.value⟩, none, c.nH⟩
  | .externalize e => ⟨.EXTERNALIZE, e.commit, some ⟨UINT32_MAX, e.commit.value⟩, none, e.nH⟩

theorem isNewerStatement_asymm {a b : SCPStatement} (h : isNewerStatement a b = true) :
    isNewerStatement b a = false := by
  rw [← Bool.not_eq_true]
  intro h'
  have hloop := isNewerStatement_trans h h'
  rw [isNewerStatement_irrefl] at hloop
  cases hloop

/-- Only two `EXTERNALIZE` have the same key without being the same in what is compared. -/
theorem key_ne_of_compared_ne {p q : Pledges} (h : p.compared ≠ q.compared)
    (hext : p.type ≠ .EXTERNALIZE ∨ q.type ≠ .EXTERNALIZE) : p.key ≠ q.key := by
  intro hkey
  cases p with
  | prepare p =>
    cases q with
    | prepare q =>
      simp only [Pledges.key, toLex_inj, Prod.mk.injEq, true_and] at hkey
      obtain ⟨hballot, hprepared, hprime, hnH⟩ := hkey
      exact h (by simp [Pledges.compared, hballot, ptrKey_injective hprepared,
        ptrKey_injective hprime, hnH])
    | confirm q => simp [Pledges.key] at hkey
    | externalize q => simp [Pledges.key] at hkey
  | confirm p =>
    cases q with
    | prepare q => simp [Pledges.key] at hkey
    | confirm q =>
      simp only [Pledges.key, toLex_inj, Prod.mk.injEq, true_and] at hkey
      obtain ⟨hballot, hprepared, hnH⟩ := hkey
      have hcounter := ptrKey_injective hprepared
      simp only [Option.some.injEq, SCPBallot.mk.injEq, and_true] at hcounter
      exact h (by simp [Pledges.compared, hballot, hcounter, hnH])
    | externalize q => simp [Pledges.key] at hkey
  | externalize p =>
    cases q with
    | prepare q => simp [Pledges.key] at hkey
    | confirm q => simp [Pledges.key] at hkey
    | externalize q => exact hext.elim (fun hne => hne rfl) fun hne => hne rfl

theorem isNewerStatement_total {a b : SCPStatement}
    (h : a.pledges.compared ≠ b.pledges.compared)
    (hext : a.pledges.type ≠ .EXTERNALIZE ∨ b.pledges.type ≠ .EXTERNALIZE) :
    isNewerStatement a b = true ∨ isNewerStatement b a = true := by
  rw [isNewerStatement_iff, isNewerStatement_iff]
  exact lt_or_gt_of_ne (key_ne_of_compared_ne h hext)

theorem isNewerStatement_externalize {a b : SCPStatement} (ha : a.pledges.type = .EXTERNALIZE)
    (hb : b.pledges.type = .EXTERNALIZE) : isNewerStatement a b = false := by
  rw [← Bool.not_eq_true, isNewerStatement_iff]
  cases hpa : a.pledges with
  | prepare p => simp [hpa, Pledges.type] at ha
  | confirm c => simp [hpa, Pledges.type] at ha
  | externalize e =>
    cases hpb : b.pledges with
    | prepare p => simp [hpb, Pledges.type] at hb
    | confirm c => simp [hpb, Pledges.type] at hb
    | externalize e' => exact lt_irrefl _

/-! ## Nominations -/

namespace Nomination

theorem isSubsetHelper_iff {p v : List Value} (hp : p.Pairwise (· ≤ ·)) (hv : v.Pairwise (· ≤ ·)) :
    isSubsetHelper p v =
      if p.Sublist v then (true, decide (p ≠ v)) else (false, true) := by
  have hincludes := includes_iff_sublist hv hp
  unfold isSubsetHelper
  by_cases h : p.Sublist v
  · rw [if_pos h.length_le, if_pos (hincludes.mpr h), if_pos h, Prod.mk.injEq]
    refine ⟨rfl, decide_eq_decide.mpr (not_congr ?_)⟩
    exact ⟨fun hlen => h.eq_of_length hlen, fun heq => heq ▸ rfl⟩
  · rw [if_neg (mt hincludes.mp h), ite_self, if_neg h]

/-- Sorted lists are included in one another as multisets. -/
theorem sublist_iff_le {p v : List Value} (hp : p.Pairwise (· ≤ ·)) (hv : v.Pairwise (· ≤ ·)) :
    p.Sublist v ↔ (p : Multiset Value) ≤ v :=
  ⟨fun h => Multiset.coe_le.mpr h.subperm,
    fun h => List.sublist_of_subperm_of_pairwise (Multiset.coe_le.mp h) hp hv⟩

/-- What a nomination lists, with repetitions. -/
def SCPNomination.listed (nom : SCPNomination) : Multiset Value × Multiset Value :=
  (nom.votes, nom.accepted)

theorem sorted_of_isSanePledge {nom : SCPNomination} (h : isSanePledge nom = true) :
    nom.votes.Pairwise (· ≤ ·) ∧ nom.accepted.Pairwise (· ≤ ·) := by
  simp only [isSanePledge, isSorted, Bool.and_eq_true, decide_eq_true_eq] at h
  exact ⟨h.1.2, h.2⟩

/-- A sane statement is newer just if it lists more. -/
theorem isNewerStatement_iff_lt {a b : SCPNomination} (ha : isSanePledge a = true)
    (hb : isSanePledge b = true) : isNewerStatement a b = true ↔ a.listed < b.listed := by
  obtain ⟨hva, haa⟩ := sorted_of_isSanePledge ha
  obtain ⟨hvb, hab⟩ := sorted_of_isSanePledge hb
  have heq {p v : List Value} (hp : p.Pairwise (· ≤ ·)) (hv : v.Pairwise (· ≤ ·)) :
      p = v ↔ (p : Multiset Value) = v :=
    ⟨fun h => h ▸ rfl, fun h => (Multiset.coe_eq_coe.mp h).eq_of_pairwise
      (fun _ _ _ _ hle hle' => le_antisymm hle hle') hp hv⟩
  rw [lt_iff_le_and_ne, Prod.le_def, ne_eq, Prod.ext_iff]
  show _ ↔ ((a.votes : Multiset Value) ≤ b.votes ∧ (a.accepted : Multiset Value) ≤ b.accepted) ∧
    ¬ ((a.votes : Multiset Value) = b.votes ∧ (a.accepted : Multiset Value) = b.accepted)
  rw [← sublist_iff_le hva hvb, ← sublist_iff_le haa hab, ← heq hva hvb, ← heq haa hab]
  unfold isNewerStatement
  rw [isSubsetHelper_iff hva hvb, isSubsetHelper_iff haa hab]
  by_cases hv : a.votes.Sublist b.votes
  · by_cases haccepted : a.accepted.Sublist b.accepted
    · simp [hv, haccepted, imp_iff_not_or]
    · simp [hv, haccepted]
  · simp [hv]

/-- A value that is listed twice makes a statement newer. -/
example : isSanePledge ⟨0, [[1], [1]], []⟩ = true ∧
    isNewerStatement ⟨0, [[1]], []⟩ ⟨0, [[1], [1]], []⟩ = true := by decide

end Nomination

/-! ## The order -/

/-- **Newness of statements.** Among the statements of a node it is a strict order of ballots, that
tells any two apart that differ in what is compared if one of them is no `EXTERNALIZE`; among sane
nominations it is proper inclusion, with repetitions. -/
theorem statement_newness :
    (∀ a : SCPStatement, isNewerStatement a a = false) ∧
    (∀ a b c : SCPStatement, isNewerStatement a b = true → isNewerStatement b c = true →
      isNewerStatement a c = true) ∧
    (∀ a b : SCPStatement, isNewerStatement a b = true → isNewerStatement b a = false) ∧
    (∀ a b : SCPStatement, a.pledges.compared ≠ b.pledges.compared →
      (a.pledges.type ≠ .EXTERNALIZE ∨ b.pledges.type ≠ .EXTERNALIZE) →
      (isNewerStatement a b = true ∨ isNewerStatement b a = true)) ∧
    (∀ a b : SCPStatement, a.pledges.type = .EXTERNALIZE → b.pledges.type = .EXTERNALIZE →
      isNewerStatement a b = false) ∧
    (∀ a b : Nomination.SCPNomination, Nomination.isSanePledge a = true →
      Nomination.isSanePledge b = true →
      (Nomination.isNewerStatement a b = true ↔ a.listed < b.listed)) ∧
    (∀ a : Nomination.SCPNomination, Nomination.isSanePledge a = true →
      Nomination.isNewerStatement a a = false) ∧
    (∀ a b c : Nomination.SCPNomination, Nomination.isSanePledge a = true →
      Nomination.isSanePledge b = true → Nomination.isSanePledge c = true →
      Nomination.isNewerStatement a b = true → Nomination.isNewerStatement b c = true →
      Nomination.isNewerStatement a c = true) ∧
    (∀ a b : Nomination.SCPNomination, Nomination.isSanePledge a = true →
      Nomination.isSanePledge b = true → Nomination.isNewerStatement a b = true →
      Nomination.isNewerStatement b a = false) := by
  refine ⟨isNewerStatement_irrefl, fun a b c => isNewerStatement_trans,
    fun a b => isNewerStatement_asymm, fun a b => isNewerStatement_total,
    fun a b => isNewerStatement_externalize, fun a b => Nomination.isNewerStatement_iff_lt, ?_, ?_, ?_⟩
  · intro a ha
    rw [← Bool.not_eq_true, Nomination.isNewerStatement_iff_lt ha ha]
    exact lt_irrefl _
  · intro a b c ha hb hc hab hbc
    rw [Nomination.isNewerStatement_iff_lt ha hb] at hab
    rw [Nomination.isNewerStatement_iff_lt hb hc] at hbc
    exact (Nomination.isNewerStatement_iff_lt ha hc).mpr (hab.trans hbc)
  · intro a b ha hb hab
    rw [Nomination.isNewerStatement_iff_lt ha hb] at hab
    rw [← Bool.not_eq_true, Nomination.isNewerStatement_iff_lt hb ha]
    exact hab.asymm

/-- The statement of a node that it has externalized the empty value, confirmed up to a counter. -/
def externalizedUpTo (nodeID : NodeID) (nH : Uint32) : SCPStatement :=
  ⟨nodeID, 1, .externalize ⟨⟨1, []⟩, nH, 0⟩⟩

theorem statement_newness_example :
    isNewerStatement ⟨3, 1, .prepare ⟨0, ⟨2, []⟩, none, none, 0, 0⟩⟩ (externalizedUpTo 3 1) = true ∨
      isNewerStatement (externalizedUpTo 3 1) ⟨3, 1, .prepare ⟨0, ⟨2, []⟩, none, none, 0, 0⟩⟩ =
        true :=
  statement_newness.2.2.2.1 _ _ (by decide) (.inl (by decide))

/-- Of two sane `EXTERNALIZE` with different highest counters, none is newer. -/
theorem externalize_incomparable :
    (∀ (node : Node) (self : Bool), node.isStatementSane (externalizedUpTo 3 1) self = true ∧
      node.isStatementSane (externalizedUpTo 3 2) self = true) ∧
    (externalizedUpTo 3 1).pledges.compared ≠ (externalizedUpTo 3 2).pledges.compared ∧
    isNewerStatement (externalizedUpTo 3 1) (externalizedUpTo 3 2) = false ∧
    isNewerStatement (externalizedUpTo 3 2) (externalizedUpTo 3 1) = false := by
  refine ⟨fun node self => ?_, by decide, rfl, rfl⟩
  have hqset := isQuorumSetSane_singleton 3
  exact ⟨by simp [Node.isStatementSane, Node.getQuorumSetFromStatement, externalizedUpTo,
      pledgesSane, hqset],
    by simp [Node.isStatementSane, Node.getQuorumSetFromStatement, externalizedUpTo, pledgesSane,
      hqset]⟩

end SmartCore.SCP
