import Mathlib.Data.Prod.Lex
import Mathlib.Data.List.Lex
import Mathlib.Data.ZMod.Defs
import Mathlib.Order.Fin.Basic
import Mathlib.Tactic.Linarith
import SmartCore.Lib.Words

/-!
# The SCP data model

Ballots, statements, envelopes and quorum sets as `Stellar-SCP.x` declares them, with the
comparisons of `BallotProtocol` on ballots.

Counters are `uint32`, values are byte strings. Nodes, hashes and signatures are only ever
compared, so they are numbers. A statement of this module is a ballot statement; nomination
statements go to another protocol and never reach this one.

`compareBallots` orders ballots first by counter, then by value. That order is total
(`compareBallots_lt_iff` and its companions tie the code's three-way answer to it), and the
empty ballot `(0, "")` is its least element.
-/

namespace SmartCore

/-- Linear orders give comparisons that only answer "equal" on equal elements. -/
instance instLawfulEqCmpCompare {α : Type} [LinearOrder α] :
    Std.LawfulEqCmp (compare : α → α → Ordering) where
  eq_of_compare := compare_eq_iff_eq.mp

namespace SCP

/-! ## Base types -/

/-- A 32-bit unsigned integer. -/
abbrev Uint32 := Fin (2 ^ 32)

instance : Std.TransOrd Uint32 := inferInstance

/-- `UINT32_MAX`. -/
def UINT32_MAX : Uint32 := Fin.last _

/-- An opaque value: a byte string, empty by default. -/
abbrev Value := List (Fin 256)

/-- A node's public key. -/
abbrev NodeID := ℕ

/-- A SHA-256 hash. -/
abbrev Hash := ℕ

/-- An envelope signature. -/
abbrev Signature := ℕ

/-! ## Ballots -/

/-- A ballot `(n, x)`. The default is the ballot a C++ `SCPBallot()` holds. -/
structure SCPBallot where
  counter : Uint32 := 0
  value : Value := []
deriving DecidableEq, Repr

namespace SCPBallot

/-- The pair that `operator<` on ballots compares. -/
def key (b : SCPBallot) : Uint32 ×ₗ Value := toLex (b.counter, b.value)

theorem key_injective : Function.Injective key := by
  intro a b h
  cases a
  cases b
  simpa [key] using h

instance : LinearOrder SCPBallot := LinearOrder.lift' key key_injective

theorem lt_iff {a b : SCPBallot} :
    a < b ↔ a.counter < b.counter ∨ a.counter = b.counter ∧ a.value < b.value :=
  Prod.Lex.toLex_lt_toLex

theorem le_iff {a b : SCPBallot} :
    a ≤ b ↔ a.counter < b.counter ∨ a.counter = b.counter ∧ a.value ≤ b.value :=
  Prod.Lex.toLex_le_toLex

theorem counter_le {a b : SCPBallot} (h : a ≤ b) : a.counter ≤ b.counter := by
  rcases le_iff.mp h with h | h
  · exact h.le
  · exact h.1.le

/-- On compatible ballots the order is the order of the counters. -/
theorem le_of_counter_le {a b : SCPBallot} (hv : a.value = b.value) (h : a.counter ≤ b.counter) :
    a ≤ b := by
  rcases h.lt_or_eq with h | h
  · exact le_iff.mpr (Or.inl h)
  · exact le_iff.mpr (Or.inr ⟨h, hv.le⟩)

theorem lt_of_counter_lt {a b : SCPBallot} (h : a.counter < b.counter) : a < b :=
  lt_iff.mpr (Or.inl h)

theorem counter_lt_of_lt {a b : SCPBallot} (hv : a.value = b.value) (h : a < b) :
    a.counter < b.counter := by
  rcases lt_iff.mp h with h | h
  · exact h
  · exact absurd h.2 (by rw [hv]; exact lt_irrefl _)

theorem ext_of_le {a b : SCPBallot} (hv : a.value = b.value) (h : a.counter = b.counter) :
    a = b := by
  cases a
  cases b
  simp_all

/-- The empty ballot is the least one. -/
theorem default_le (b : SCPBallot) : ({} : SCPBallot) ≤ b := by
  rw [le_iff]
  rcases (Fin.zero_le b.counter).lt_or_eq with h | h
  · exact Or.inl h
  · exact Or.inr ⟨h, not_lt.mp (List.not_lt_nil _)⟩

end SCPBallot

/-- The three-way comparison of two ballots. -/
def compareBallots (b1 b2 : SCPBallot) : ℤ :=
  if b1.counter < b2.counter then -1
  else if b2.counter < b1.counter then 1
  else if b1.value < b2.value then -1
  else if b2.value < b1.value then 1
  else 0

/-- The comparison of two ballot pointers; a null pointer comes first. -/
def compareBallotPtrs : Option SCPBallot → Option SCPBallot → ℤ
  | some b1, some b2 => compareBallots b1 b2
  | some _, none => 1
  | none, some _ => -1
  | none, none => 0

theorem compareBallots_lt_iff {a b : SCPBallot} : compareBallots a b < 0 ↔ a < b := by
  rw [SCPBallot.lt_iff]
  unfold compareBallots
  split_ifs with h1 h2 h3 h4
  · simp [h1]
  · simp [h1, h2.ne']
  · simp [h3, le_antisymm (not_lt.mp h2) (not_lt.mp h1)]
  · simp [h1, h3]
  · simp [h1, h3]

theorem compareBallots_neg (a b : SCPBallot) : compareBallots b a = -compareBallots a b := by
  unfold compareBallots
  rcases lt_trichotomy a.counter b.counter with h | h | h <;>
    rcases lt_trichotomy a.value b.value with h' | h' | h' <;>
    simp [h, h', not_lt_of_gt]

theorem compareBallots_pos_iff {a b : SCPBallot} : 0 < compareBallots a b ↔ b < a := by
  rw [← compareBallots_lt_iff, compareBallots_neg a b]
  omega

theorem compareBallots_le_iff {a b : SCPBallot} : compareBallots a b ≤ 0 ↔ a ≤ b := by
  rw [← not_lt, compareBallots_pos_iff, not_lt]

theorem compareBallots_ge_iff {a b : SCPBallot} : 0 ≤ compareBallots a b ↔ b ≤ a := by
  rw [← not_lt, compareBallots_lt_iff, not_lt]

theorem compareBallots_eq_zero_iff {a b : SCPBallot} : compareBallots a b = 0 ↔ a = b := by
  constructor
  · intro h
    exact le_antisymm (compareBallots_le_iff.mp h.le) (compareBallots_ge_iff.mp h.ge)
  · rintro rfl
    simp [compareBallots]

attribute [simp] compareBallots_lt_iff compareBallots_pos_iff compareBallots_le_iff
  compareBallots_ge_iff compareBallots_eq_zero_iff

/-- Compatible ballots carry the same value. -/
def areBallotsCompatible (b1 b2 : SCPBallot) : Bool :=
  b1.value == b2.value

def areBallotsLessAndIncompatible (b1 b2 : SCPBallot) : Bool :=
  decide (compareBallots b1 b2 ≤ 0) && !areBallotsCompatible b1 b2

def areBallotsLessAndCompatible (b1 b2 : SCPBallot) : Bool :=
  decide (compareBallots b1 b2 ≤ 0) && areBallotsCompatible b1 b2

@[simp] theorem areBallotsCompatible_iff {a b : SCPBallot} :
    areBallotsCompatible a b = true ↔ a.value = b.value := by
  simp [areBallotsCompatible]

@[simp] theorem areBallotsLessAndCompatible_iff {a b : SCPBallot} :
    areBallotsLessAndCompatible a b = true ↔ a ≤ b ∧ a.value = b.value := by
  simp [areBallotsLessAndCompatible]

@[simp] theorem areBallotsLessAndIncompatible_iff {a b : SCPBallot} :
    areBallotsLessAndIncompatible a b = true ↔ a ≤ b ∧ a.value ≠ b.value := by
  simp [areBallotsLessAndIncompatible, areBallotsCompatible]

/-! ## Quorum sets -/

/-- A quorum set: `threshold` of the validators and inner sets. -/
inductive SCPQuorumSet where
  | mk (threshold : Uint32) (validators : List NodeID) (innerSets : List SCPQuorumSet)

namespace SCPQuorumSet

def threshold : SCPQuorumSet → Uint32
  | mk t _ _ => t

def validators : SCPQuorumSet → List NodeID
  | mk _ v _ => v

def innerSets : SCPQuorumSet → List SCPQuorumSet
  | mk _ _ i => i

end SCPQuorumSet

/-! ## Statements and envelopes -/

/-- The pledges of a `PREPARE` statement. -/
structure Prepare where
  quorumSetHash : Hash
  ballot : SCPBallot
  prepared : Option SCPBallot
  preparedPrime : Option SCPBallot
  nC : Uint32
  nH : Uint32
deriving DecidableEq, Repr

/-- The pledges of a `CONFIRM` statement. -/
structure Confirm where
  ballot : SCPBallot
  nPrepared : Uint32
  nCommit : Uint32
  nH : Uint32
  quorumSetHash : Hash
deriving DecidableEq, Repr

/-- The pledges of an `EXTERNALIZE` statement. -/
structure Externalize where
  commit : SCPBallot
  nH : Uint32
  commitQuorumSetHash : Hash
deriving DecidableEq, Repr

/-- The pledges of a ballot statement. -/
inductive Pledges where
  | prepare (p : Prepare)
  | confirm (c : Confirm)
  | externalize (e : Externalize)
deriving DecidableEq, Repr

/-- A ballot statement of a node on a slot. -/
structure SCPStatement where
  nodeID : NodeID
  slotIndex : ℕ
  pledges : Pledges
deriving DecidableEq, Repr

/-- A signed statement. -/
structure SCPEnvelope where
  statement : SCPStatement
  signature : Signature
deriving DecidableEq, Repr

end SCP

end SmartCore
