import Mathlib.Order.WithBot
import SmartCore.SCP.Slot

/-!
# The order of statements

`isNewerStatement` compares the type of two statements and then, within a type, the ballots they
carry. It is the strict order of a linearly ordered key, so it is transitive and irreflexive.
-/

namespace SmartCore.SCP

/-- A ballot pointer in the order of `compareBallotPtrs`. -/
def ptrKey : Option SCPBallot → WithBot SCPBallot
  | none => ⊥
  | some b => b

theorem compareBallotPtrs_lt_iff {a b : Option SCPBallot} :
    compareBallotPtrs a b < 0 ↔ ptrKey a < ptrKey b := by
  cases a <;> cases b <;> simp [compareBallotPtrs, ptrKey]

theorem compareBallotPtrs_eq_zero_iff {a b : Option SCPBallot} :
    compareBallotPtrs a b = 0 ↔ ptrKey a = ptrKey b := by
  cases a <;> cases b <;> simp [compareBallotPtrs, ptrKey]

theorem ptrKey_injective : Function.Injective ptrKey := by
  intro a b h
  cases a <;> cases b <;> simp_all [ptrKey]

/-- What `isNewerStatement` compares: the type, `b`, `p`, `p'` and `h`. A `CONFIRM` statement
gives the counter of its `p` only; two `EXTERNALIZE` statements are never told apart. -/
abbrev StatementKey :=
  ℕ ×ₗ SCPBallot ×ₗ WithBot SCPBallot ×ₗ WithBot SCPBallot ×ₗ Uint32

def Pledges.key : Pledges → StatementKey
  | .prepare p =>
    toLex (0, toLex (p.ballot, toLex (ptrKey p.prepared, toLex (ptrKey p.preparedPrime, p.nH))))
  | .confirm c =>
    toLex (1, toLex (c.ballot, toLex (ptrKey (some ⟨c.nPrepared, []⟩), toLex (⊥, c.nH))))
  | .externalize _ => toLex (2, toLex ({}, toLex (⊥, toLex (⊥, 0))))

/-- **The order of statements is the order of their keys.** -/
theorem isNewerStatement_iff {oldst st : SCPStatement} :
    isNewerStatement oldst st = true ↔ oldst.pledges.key < st.pledges.key := by
  unfold isNewerStatement
  split
  · rename_i oldPrep prep hold hnew
    simp only [hold, hnew, Pledges.key, Prod.Lex.toLex_lt_toLex, compareBallots_lt_iff,
      compareBallots_eq_zero_iff, compareBallotPtrs_lt_iff, compareBallotPtrs_eq_zero_iff]
    split_ifs <;> simp_all
  · rename_i oldC c hold hnew
    have hcounter : ptrKey (some ⟨oldC.nPrepared, []⟩) = ptrKey (some ⟨c.nPrepared, []⟩) ↔
        oldC.nPrepared = c.nPrepared := by simp [ptrKey]
    have hlt : ptrKey (some ⟨oldC.nPrepared, []⟩) < ptrKey (some ⟨c.nPrepared, []⟩) ↔
        oldC.nPrepared < c.nPrepared := by simp [ptrKey, SCPBallot.lt_iff]
    simp only [hold, hnew, Pledges.key, Prod.Lex.toLex_lt_toLex, compareBallots_lt_iff,
      compareBallots_eq_zero_iff, hcounter, hlt]
    split_ifs <;> simp_all
  · rename_i hold hnew
    simp [hold, hnew, Pledges.key]
  · rename_i hprep hconf hext
    -- statements of different types: the first component decides
    cases hold : oldst.pledges <;> cases hnew : st.pledges <;>
      first
      | exact absurd hnew (hprep _ _ hold)
      | exact absurd hnew (hconf _ _ hold)
      | exact absurd hnew (hext _ _ hold)
      | simp [Pledges.key, Prod.Lex.toLex_lt_toLex, Pledges.type, Phase.toNat]

theorem isNewerStatement_trans {a b c : SCPStatement} (h₁ : isNewerStatement a b = true)
    (h₂ : isNewerStatement b c = true) : isNewerStatement a c = true := by
  rw [isNewerStatement_iff] at *
  exact h₁.trans h₂

theorem isNewerStatement_irrefl (a : SCPStatement) : isNewerStatement a a = false := by
  rw [← Bool.not_eq_true, isNewerStatement_iff]
  exact lt_irrefl _

end SmartCore.SCP
