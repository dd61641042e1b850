import Mathlib.Data.Set.Basic

/-!
# Agreement from quorums that intersect

A node has slices: sets it is content with. Some of the nodes are well-behaved. A quorum is a set
that contains a slice of each of its well-behaved members; nothing is asked of the others, which
may claim any slices they like.

A well-behaved node confirms a value with a certificate: a set that contains a slice of the node,
and in which every well-behaved member has accepted the value and has a slice in the set too,
unless it has confirmed the value itself. The certificates of one value add up to a quorum, so if
quorums intersect in well-behaved nodes, no two values are confirmed (`Certified.agreement`).
-/

namespace SmartCore

variable {α β : Type*}

/-- Which sets contain a slice of a node. -/
structure SliceSystem (α : Type*) where
  slice : α → Set α → Prop
  slice_mono : ∀ {n U U'}, U ⊆ U' → slice n U → slice n U'

namespace SliceSystem

variable (S : SliceSystem α) (nodes W : Set α)

/-- A set of nodes that contains a slice of each well-behaved member. -/
structure Quorum (U : Set α) : Prop where
  subset : U ⊆ nodes
  slice : ∀ n ∈ U, n ∈ W → S.slice n U

/-- Any two quorums with well-behaved members have one in common. -/
def Intersects : Prop :=
  ∀ U U', S.Quorum nodes W U → S.Quorum nodes W U' → (U ∩ W).Nonempty → (U' ∩ W).Nonempty →
    (U ∩ U' ∩ W).Nonempty

/-- `U` lets the node `n` confirm the value `x`. -/
structure Certificate (accepts confirms : α → β → Prop) (n : α) (x : β) (U : Set α) : Prop where
  subset : U ⊆ nodes
  slice : S.slice n U
  accepted : ∀ m ∈ U, m ∈ W → accepts m x
  closed : ∀ m ∈ U, m ∈ W → S.slice m U ∨ confirms m x

/-- Well-behaved nodes accept one value at most, and confirm only what they accept and have a
certificate for. -/
structure Certified (accepts confirms : α → β → Prop) : Prop where
  subset : W ⊆ nodes
  unique : ∀ n ∈ W, ∀ x y, accepts n x → accepts n y → x = y
  accepted : ∀ n ∈ W, ∀ x, confirms n x → accepts n x
  certificate : ∀ n ∈ W, ∀ x, confirms n x →
    ∃ U, S.Certificate nodes W accepts confirms n x U

variable {S nodes W} {accepts confirms : α → β → Prop}

/-- The nodes that confirm a value, with all their certificates for it. -/
def support (S : SliceSystem α) (nodes W : Set α) (accepts confirms : α → β → Prop) (x : β) :
    Set α :=
  { k | ∃ n ∈ W, confirms n x ∧
    (k = n ∨ ∃ U, S.Certificate nodes W accepts confirms n x U ∧ k ∈ U) }

theorem Certificate.subset_support {n : α} {x : β} {U : Set α} (hn : n ∈ W) (hx : confirms n x)
    (h : S.Certificate nodes W accepts confirms n x U) :
    U ⊆ S.support nodes W accepts confirms x :=
  fun _ hk => ⟨n, hn, hx, Or.inr ⟨U, h, hk⟩⟩

theorem Certified.slice_support (h : S.Certified nodes W accepts confirms) {n : α} {x : β}
    (hn : n ∈ W) (hx : confirms n x) : S.slice n (S.support nodes W accepts confirms x) := by
  obtain ⟨U, hU⟩ := h.certificate n hn x hx
  exact S.slice_mono (hU.subset_support hn hx) hU.slice

/-- The support of a value is a quorum. -/
theorem Certified.quorum_support (h : S.Certified nodes W accepts confirms) (x : β) :
    S.Quorum nodes W (S.support nodes W accepts confirms x) where
  subset := by
    rintro k ⟨n, hn, -, rfl | ⟨U, hU, hk⟩⟩
    · exact h.subset hn
    · exact hU.subset hk
  slice := by
    rintro k ⟨n, hn, hx, rfl | ⟨U, hU, hk⟩⟩ hkW
    · exact h.slice_support hkW hx
    · rcases hU.closed k hk hkW with hs | hx'
      · exact S.slice_mono (hU.subset_support hn hx) hs
      · exact h.slice_support hkW hx'

/-- Every well-behaved node in the support of a value accepts it. -/
theorem Certified.accepts_of_support (h : S.Certified nodes W accepts confirms) {k : α} {x : β}
    (hk : k ∈ S.support nodes W accepts confirms x) (hkW : k ∈ W) : accepts k x := by
  obtain ⟨n, hn, hx, rfl | ⟨U, hU, hkU⟩⟩ := hk
  · exact h.accepted k hkW x hx
  · exact hU.accepted k hkU hkW

/-- **Agreement.** Well-behaved nodes confirm one value at most. -/
theorem Certified.agreement (h : S.Certified nodes W accepts confirms)
    (hinter : S.Intersects nodes W) {n m : α} {x y : β} (hn : n ∈ W) (hm : m ∈ W)
    (hx : confirms n x) (hy : confirms m y) : x = y := by
  obtain ⟨k, ⟨hkx, hky⟩, hkW⟩ := hinter _ _ (h.quorum_support x) (h.quorum_support y)
    ⟨n, ⟨n, hn, hx, Or.inl rfl⟩, hn⟩ ⟨m, ⟨m, hm, hy, Or.inl rfl⟩, hm⟩
  exact h.unique k hkW x y (h.accepts_of_support hkx hkW) (h.accepts_of_support hky hkW)

end SliceSystem

end SmartCore
