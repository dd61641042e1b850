import Mathlib.Data.List.Nodup
import Mathlib.Data.List.Count
import Mathlib.Tactic.Linarith

/-!
# Trees of thresholds

A node of the tree has a threshold and children, a leaf has a name. A set of leaves satisfies a node
if it satisfies enough of its children; how many are enough (`need`) is a function of the threshold
and of the number of children.

Two such functions are dual if they leave one child over: a set satisfies the one if and only if the
leaves outside of it do not satisfy the other (`sat_dual`). If one asks for fewer children than the
other, anywhere in the tree, then some set satisfies the one and not the other
(`exists_sat_of_lt`).
-/

namespace SmartCore

/-- A tree with names at its leaves. -/
inductive ThresholdTree (α : Type) where
  | leaf (a : α)
  | node (threshold : ℕ) (children : List (ThresholdTree α))

namespace ThresholdTree

variable {α : Type} {need need' : ℕ → ℕ → ℕ} {S S' : α → Bool}

/-- Induction over the nesting. -/
theorem induct {P : ThresholdTree α → Prop} (leaf : ∀ a, P (leaf a))
    (node : ∀ t cs, (∀ c ∈ cs, P c) → P (node t cs)) (T : ThresholdTree α) : P T := by
  refine @ThresholdTree.rec α P (fun cs => ∀ c ∈ cs, P c) leaf node ?_ ?_ T
  · intro c hc
    cases hc
  · intro c cs hc hcs c' hmem
    rcases List.mem_cons.mp hmem with rfl | hmem
    · exact hc
    · exact hcs c' hmem

def leaves : ThresholdTree α → List α
  | leaf a => [a]
  | node _ cs => (cs.map leaves).flatten

/-- The threshold and the number of children of every node. -/
def nodes : ThresholdTree α → List (ℕ × ℕ)
  | leaf _ => []
  | node t cs => (t, cs.length) :: (cs.map nodes).flatten

/-- Whether the leaves in `S` satisfy the tree. -/
def sat (need : ℕ → ℕ → ℕ) (S : α → Bool) : ThresholdTree α → Bool
  | leaf a => S a
  | node t cs => decide (need t cs.length ≤ (cs.map (sat need S)).count true)

theorem sat_node {t : ℕ} {cs : List (ThresholdTree α)} :
    sat need S (node t cs) = true ↔ need t cs.length ≤ cs.countP (sat need S) := by
  have hcount : (cs.map (sat need S)).count true = cs.countP (sat need S) := by
    rw [List.count_eq_countP, List.countP_map]
    exact List.countP_congr fun c _ => by simp
  rw [sat, decide_eq_true_iff, hcount]

theorem leaves_subset {t : ℕ} {cs : List (ThresholdTree α)} {c : ThresholdTree α} (hc : c ∈ cs) :
    c.leaves ⊆ (node t cs).leaves := by
  intro a ha
  rw [leaves, List.mem_flatten]
  exact ⟨c.leaves, List.mem_map_of_mem hc, ha⟩

theorem mem_flatten_leaves {cs : List (ThresholdTree α)} {a : α} :
    a ∈ (cs.map leaves).flatten ↔ ∃ c ∈ cs, a ∈ c.leaves := by
  rw [List.mem_flatten]
  simp

theorem nodes_subset {t : ℕ} {cs : List (ThresholdTree α)} {c : ThresholdTree α} (hc : c ∈ cs) :
    c.nodes ⊆ (node t cs).nodes := by
  intro p hp
  rw [nodes]
  refine List.mem_cons_of_mem _ (List.mem_flatten.mpr ⟨c.nodes, List.mem_map_of_mem hc, hp⟩)

theorem mem_nodes_self (t : ℕ) (cs : List (ThresholdTree α)) :
    (t, cs.length) ∈ (node t cs).nodes := by
  rw [nodes]
  exact List.mem_cons_self

/-- Only the leaves of the tree matter. -/
theorem sat_congr {T : ThresholdTree α} (h : ∀ a ∈ T.leaves, S a = S' a) :
    sat need S T = sat need S' T := by
  induction T using induct with
  | leaf a =>
    simp only [sat]
    exact h a (by simp [leaves])
  | node t cs ih =>
    rw [Bool.eq_iff_iff, sat_node, sat_node]
    have hcount : cs.countP (sat need S) = cs.countP (sat need S') :=
      List.countP_congr fun c hc => by rw [ih c hc fun a ha => h a (leaves_subset hc ha)]
    rw [hcount]

theorem sat_mono {T : ThresholdTree α} (h : ∀ a ∈ T.leaves, S a = true → S' a = true)
    (hT : sat need S T = true) : sat need S' T = true := by
  induction T using induct with
  | leaf a =>
    simp only [sat] at hT ⊢
    exact h a (by simp [leaves]) hT
  | node t cs ih =>
    rw [sat_node] at hT ⊢
    exact hT.trans (List.countP_mono_left fun c hc => ih c hc fun a ha => h a (leaves_subset hc ha))

/-- Only what is needed at the nodes of the tree matters. -/
theorem sat_need_congr {T : ThresholdTree α} (h : ∀ p ∈ T.nodes, need p.1 p.2 = need' p.1 p.2) :
    sat need S T = sat need' S T := by
  induction T using induct with
  | leaf a => simp only [sat]
  | node t cs ih =>
    rw [Bool.eq_iff_iff, sat_node, sat_node, h _ (mem_nodes_self _ _)]
    have hcount : cs.countP (sat need S) = cs.countP (sat need' S) :=
      List.countP_congr fun c hc => by rw [ih c hc fun p hp => h p (nodes_subset hc hp)]
    rw [hcount]

/-- All leaves satisfy the tree. -/
theorem sat_all {T : ThresholdTree α} (hneed : ∀ p ∈ T.nodes, need p.1 p.2 ≤ p.2)
    (h : ∀ a ∈ T.leaves, S a = true) : sat need S T = true := by
  induction T using induct with
  | leaf a =>
    simp only [sat]
    exact h a (by simp [leaves])
  | node t cs ih =>
    have hall : cs.countP (sat need S) = cs.length := List.countP_eq_length.mpr fun c hc =>
      ih c hc (fun p hp => hneed p (nodes_subset hc hp)) fun a ha => h a (leaves_subset hc ha)
    rw [sat_node, hall]
    exact hneed _ (mem_nodes_self _ _)

/-- No leaves do not. -/
theorem sat_none {T : ThresholdTree α} (hneed : ∀ p ∈ T.nodes, 1 ≤ need p.1 p.2)
    (h : ∀ a ∈ T.leaves, S a = false) : sat need S T = false := by
  induction T using induct with
  | leaf a =>
    simp only [sat]
    exact h a (by simp [leaves])
  | node t cs ih =>
    have hnone : cs.countP (sat need S) = 0 := List.countP_eq_zero.mpr fun c hc => by
      rw [ih c hc (fun p hp => hneed p (nodes_subset hc hp)) fun a ha => h a (leaves_subset hc ha)]
      exact Bool.false_ne_true
    rw [Bool.eq_false_iff, Ne, sat_node, hnone]
    have := hneed _ (mem_nodes_self t cs)
    dsimp only at this
    omega

/-- **Duality.** Of the children, those that one side leaves are the ones that the other side
lacks. -/
theorem sat_dual {T : ThresholdTree α}
    (h : ∀ p ∈ T.nodes, need p.1 p.2 + need' p.1 p.2 = p.2 + 1) :
    sat need S T = !sat need' (fun a => !S a) T := by
  induction T using induct with
  | leaf a => simp [sat]
  | node t cs ih =>
    have hsplit : cs.countP (sat need S) + cs.countP (sat need' fun a => !S a) = cs.length := by
      have hcount : cs.countP (sat need' fun a => !S a) = cs.countP fun c => ¬ sat need S c := by
        refine List.countP_congr fun c hc => ?_
        rw [ih c hc fun p hp => h p (nodes_subset hc hp)]
        simp
      rw [hcount]
      exact (List.length_eq_countP_add_countP (sat need S)).symm
    have hneed := h _ (mem_nodes_self t cs)
    dsimp only at hneed
    rw [Bool.eq_iff_iff, Bool.not_eq_true', Bool.eq_false_iff, Ne, sat_node, sat_node]
    omega

/-! ## Trees that ask for less -/

theorem pairwise_of_nodup {t : ℕ} {cs : List (ThresholdTree α)} (h : (node t cs).leaves.Nodup) :
    cs.Pairwise fun c c' => c.leaves.Disjoint c'.leaves := by
  rw [leaves, List.nodup_flatten] at h
  exact List.pairwise_map.mp h.2

theorem nodup_child {t : ℕ} {cs : List (ThresholdTree α)} (h : (node t cs).leaves.Nodup)
    {c : ThresholdTree α} (hc : c ∈ cs) : c.leaves.Nodup := by
  rw [leaves, List.nodup_flatten] at h
  exact h.1 _ (List.mem_map_of_mem hc)

/-- The leaves of some of the children satisfy these and no others. -/
theorem countP_take {cs : List (ThresholdTree α)} {k : ℕ} (hk : k ≤ cs.length)
    (hdisjoint : cs.Pairwise fun c c' => c.leaves.Disjoint c'.leaves)
    (hneed : ∀ c ∈ cs, ∀ p ∈ c.nodes, 1 ≤ need p.1 p.2 ∧ need p.1 p.2 ≤ p.2) {S : α → Bool}
    (hS : ∀ c ∈ cs, ∀ a ∈ c.leaves, (S a = true ↔ ∃ c' ∈ cs.take k, a ∈ c'.leaves)) :
    cs.countP (sat need S) = k := by
  have htake : (cs.take k).countP (sat need S) = k := by
    rw [List.countP_eq_length.mpr, List.length_take, min_eq_left hk]
    intro c hc
    have hmem := List.mem_of_mem_take hc
    exact sat_all (fun p hp => (hneed c hmem p hp).2) fun a ha => (hS c hmem a ha).mpr ⟨c, hc, ha⟩
  have hdrop : (cs.drop k).countP (sat need S) = 0 := by
    rw [List.countP_eq_zero]
    intro c hc
    have hmem := List.mem_of_mem_drop hc
    rw [sat_none (fun p hp => (hneed c hmem p hp).1) fun a ha => ?_]
    · exact Bool.false_ne_true
    · rw [Bool.eq_false_iff, Ne, hS c hmem a ha]
      rintro ⟨c', hc', ha'⟩
      rw [← List.take_append_drop k cs] at hdisjoint
      exact (List.pairwise_append.mp hdisjoint).2.2 c' hc' c hc ha' ha
  rw [← List.take_append_drop k cs, List.countP_append, htake, hdrop, add_zero]

/-- **A tree that asks for less**, at any of its nodes, is satisfied by more: some set satisfies it
and not the other. -/
theorem exists_sat_of_lt [DecidableEq α] {T : ThresholdTree α} (hnodup : T.leaves.Nodup)
    (hneed : ∀ p ∈ T.nodes, 1 ≤ need p.1 p.2 ∧ need p.1 p.2 ≤ need' p.1 p.2 ∧ need' p.1 p.2 ≤ p.2)
    (hlt : ∃ p ∈ T.nodes, need p.1 p.2 < need' p.1 p.2) :
    ∃ S : List α, S ⊆ T.leaves ∧ sat need (fun a => decide (a ∈ S)) T = true ∧
      sat need' (fun a => decide (a ∈ S)) T = false := by
  induction T using induct with
  | leaf a =>
    obtain ⟨p, hp, -⟩ := hlt
    rw [nodes] at hp
    cases hp
  | node t cs ih =>
    obtain ⟨h₁, hle, hall⟩ := hneed _ (mem_nodes_self t cs)
    dsimp only at h₁ hle hall
    have hchild : ∀ c ∈ cs, ∀ p ∈ c.nodes,
        1 ≤ need p.1 p.2 ∧ need p.1 p.2 ≤ need' p.1 p.2 ∧ need' p.1 p.2 ≤ p.2 :=
      fun c hc p hp => hneed p (nodes_subset hc hp)
    by_cases hself : need t cs.length < need' t cs.length
    · -- as many children as the one needs
      have hcount : ∀ f : ℕ → ℕ → ℕ, (∀ c ∈ cs, ∀ p ∈ c.nodes, 1 ≤ f p.1 p.2 ∧ f p.1 p.2 ≤ p.2) →
          cs.countP (sat f fun a => decide (a ∈ ((cs.take (need t cs.length)).map leaves).flatten)) =
            need t cs.length := by
        intro f hf
        refine countP_take (by omega) (pairwise_of_nodup hnodup) hf fun c _ a _ => ?_
        rw [decide_eq_true_iff, mem_flatten_leaves]
      refine ⟨((cs.take (need t cs.length)).map leaves).flatten, ?_, ?_, ?_⟩
      · intro a ha
        obtain ⟨c, hc, ha⟩ := mem_flatten_leaves.mp ha
        exact leaves_subset (List.mem_of_mem_take hc) ha
      · rw [sat_node, hcount need fun c hc p hp => ⟨(hchild c hc p hp).1,
          (hchild c hc p hp).2.1.trans (hchild c hc p hp).2.2⟩]
      · rw [Bool.eq_false_iff, Ne, sat_node, hcount need' fun c hc p hp =>
          ⟨(hchild c hc p hp).1.trans (hchild c hc p hp).2.1, (hchild c hc p hp).2.2⟩]
        omega
    · -- one child that tells them apart, and all but one of those that are needed
      obtain ⟨p, hp, hplt⟩ := hlt
      have hp : ∃ c ∈ cs, p ∈ c.nodes := by
        rw [nodes] at hp
        rcases List.mem_cons.mp hp with rfl | hp
        · exact absurd hplt hself
        · simpa using hp
      obtain ⟨c, hc, hp⟩ := hp
      obtain ⟨S, hS, hsat, hunsat⟩ := ih c hc (nodup_child hnodup hc) (hchild c hc) ⟨p, hp, hplt⟩
      obtain ⟨pre, post, rfl⟩ := List.append_of_mem hc
      set n := (pre ++ c :: post).length
      have hperm : (pre ++ c :: post).Perm (c :: (pre ++ post)) := List.perm_middle
      have hlen : (pre ++ post).length + 1 = n := by
        simp only [n, List.length_append, List.length_cons]
        omega
      have hdisjoint : (c :: (pre ++ post)).Pairwise fun c c' => c.leaves.Disjoint c'.leaves :=
        (hperm.pairwise_iff fun h => List.disjoint_symm h).mp (pairwise_of_nodup hnodup)
      obtain ⟨hfirst, hothers⟩ := List.pairwise_cons.mp hdisjoint
      set chosen := ((pre ++ post).take (need' t n - 1))
      have hmemChosen : ∀ {c'}, c' ∈ chosen → c' ∈ pre ++ post := List.mem_of_mem_take
      have hself : ∀ f, sat f (fun a => decide (a ∈ S ++ (chosen.map leaves).flatten)) c =
          sat f (fun a => decide (a ∈ S)) c := by
        intro f
        refine sat_congr fun a ha => ?_
        have hnot : ∀ c' ∈ chosen, a ∉ c'.leaves := fun c' hc' ha' =>
          hfirst c' (hmemChosen hc') ha ha'
        rw [decide_eq_decide, List.mem_append, mem_flatten_leaves]
        refine ⟨fun h => h.resolve_right ?_, Or.inl⟩
        rintro ⟨c', hc', ha'⟩
        exact hnot c' hc' ha'
      have hcount : ∀ f : ℕ → ℕ → ℕ, (∀ c' ∈ pre ++ post, ∀ p ∈ c'.nodes,
          1 ≤ f p.1 p.2 ∧ f p.1 p.2 ≤ p.2) → (pre ++ post).countP
            (sat f fun a => decide (a ∈ S ++ (chosen.map leaves).flatten)) = need' t n - 1 := by
        intro f hf
        refine countP_take (by omega) hothers hf fun c' hc' a ha => ?_
        have hnot : a ∉ S := fun haS => hfirst c' hc' (hS haS) ha
        rw [decide_eq_true_iff, List.mem_append, mem_flatten_leaves, or_iff_right hnot]
      have hmem : ∀ {c'}, c' ∈ pre ++ post → c' ∈ pre ++ c :: post := fun h =>
        hperm.mem_iff.mpr (List.mem_cons_of_mem _ h)
      refine ⟨S ++ (chosen.map leaves).flatten, ?_, ?_, ?_⟩
      · intro a ha
        rcases List.mem_append.mp ha with ha | ha
        · exact leaves_subset hc (hS ha)
        · obtain ⟨c', hc', ha⟩ := mem_flatten_leaves.mp ha
          exact leaves_subset (hmem (hmemChosen hc')) ha
      · rw [sat_node, hperm.countP_eq, List.countP_cons, hself, hsat, hcount need fun c' hc' p hp =>
          ⟨(hchild c' (hmem hc') p hp).1,
            (hchild c' (hmem hc') p hp).2.1.trans (hchild c' (hmem hc') p hp).2.2⟩]
        show need t n ≤ need' t n - 1 + 1
        omega
      · rw [Bool.eq_false_iff, Ne, sat_node, hperm.countP_eq, List.countP_cons, hself, hunsat,
          hcount need' fun c' hc' p hp => ⟨(hchild c' (hmem hc') p hp).1.trans
            (hchild c' (hmem hc') p hp).2.1, (hchild c' (hmem hc') p hp).2.2⟩]
        show ¬ need' t n ≤ need' t n - 1 + 0
        omega

end ThresholdTree

end SmartCore
