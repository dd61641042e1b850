import Mathlib.Data.List.Basic
import Mathlib.Data.List.Nodup
import Mathlib.Data.List.Perm.Subperm
import Mathlib.Logic.Relation
import Mathlib.Tactic.Common

/-!
# Searching a graph

A search keeps the nodes that it has visited, and a backlog of nodes that it has found and not yet
visited. In each round it takes some node of the backlog and finds the nodes next to it.

`Search.Inv` is kept whatever node is taken (`Inv.visit`). When the backlog is empty, what was
visited is what can be reached (`Inv.mem_visited_iff`).
-/

namespace SmartCore

structure Search (α : Type) where
  backlog : List α
  visited : List α := []

namespace Search

variable {α : Type} [DecidableEq α]

/-- Takes `c` from the backlog. -/
def take (s : Search α) (c : α) : Search α :=
  { backlog := s.backlog.erase c, visited := c :: s.visited }

/-- Adds a node to the backlog unless it has been visited. -/
def discover (s : Search α) (a : α) : Search α :=
  if a ∈ s.visited then s else { s with backlog := s.backlog.insert a }

def discoverAll (s : Search α) (found : List α) : Search α := found.foldl discover s

section Discover

variable {s : Search α} {a b : α} {found : List α}

@[simp] theorem visited_discover : (s.discover a).visited = s.visited := by
  unfold discover
  split_ifs <;> rfl

@[simp] theorem visited_discoverAll : (s.discoverAll found).visited = s.visited := by
  induction found generalizing s with
  | nil => rfl
  | cons a found ih => exact ih.trans visited_discover

theorem mem_backlog_discover :
    b ∈ (s.discover a).backlog ↔ b ∈ s.backlog ∨ b = a ∧ b ∉ s.visited := by
  unfold discover
  split_ifs with h
  · constructor
    · exact Or.inl
    · rintro (hb | ⟨rfl, hb⟩)
      · exact hb
      · exact absurd h hb
  · show b ∈ s.backlog.insert a ↔ _
    rw [List.mem_insert_iff]
    constructor
    · rintro (rfl | hb)
      · exact Or.inr ⟨rfl, h⟩
      · exact Or.inl hb
    · rintro (hb | ⟨rfl, -⟩)
      · exact Or.inr hb
      · exact Or.inl rfl

theorem mem_backlog_discoverAll :
    b ∈ (s.discoverAll found).backlog ↔ b ∈ s.backlog ∨ b ∈ found ∧ b ∉ s.visited := by
  induction found generalizing s with
  | nil => simp [discoverAll]
  | cons a found ih =>
    have hcons : s.discoverAll (a :: found) = (s.discover a).discoverAll found := rfl
    rw [hcons, ih, mem_backlog_discover, visited_discover, List.mem_cons]
    tauto

theorem nodup_discoverAll (h : s.backlog.Nodup) : (s.discoverAll found).backlog.Nodup := by
  induction found generalizing s with
  | nil => exact h
  | cons a found ih =>
    refine ih ?_
    unfold discover
    split_ifs
    · exact h
    · exact h.insert

theorem discoverAll_append (found found' : List α) :
    s.discoverAll (found ++ found') = (s.discoverAll found).discoverAll found' :=
  List.foldl_append

end Discover

/-! ## What is kept -/

section Kept

variable (next : α → List α) (start : α)

/-- `b` can be reached from `a`. -/
def Reaches (a b : α) : Prop := Relation.ReflTransGen (fun a b => b ∈ next a) a b

/-- One round: `c` is taken. -/
def visit (s : Search α) (c : α) : Search α := (s.take c).discoverAll (next c)

structure Inv (s : Search α) : Prop where
  nodup : s.backlog.Nodup
  nodup_visited : s.visited.Nodup
  notMem : ∀ a ∈ s.backlog, a ∉ s.visited
  reaches : ∀ a, a ∈ s.backlog ∨ a ∈ s.visited → Reaches next start a
  start : start ∈ s.backlog ∨ start ∈ s.visited
  closed : ∀ a ∈ s.visited, ∀ b ∈ next a, b ∈ s.backlog ∨ b ∈ s.visited

variable {next start} {s : Search α} {c : α}

omit [DecidableEq α] in
theorem inv_start : Inv next start { backlog := [start] } where
  nodup := List.nodup_singleton start
  nodup_visited := List.nodup_nil
  notMem := by simp
  reaches := by
    rintro a (ha | ha)
    · obtain rfl := List.mem_singleton.mp ha
      exact .refl
    · cases ha
  start := Or.inl (List.mem_singleton_self start)
  closed := by simp

theorem mem_visit {a : α} (h : Inv next start s) :
    (a ∈ (s.visit next c).backlog ∨ a ∈ (s.visit next c).visited) ↔
      (a = c ∨ a ∈ s.backlog ∨ a ∈ s.visited) ∨ a ∈ next c := by
  have hvisited : (s.visit next c).visited = c :: s.visited := visited_discoverAll
  have hbacklog : a ∈ (s.visit next c).backlog ↔
      a ∈ s.backlog.erase c ∨ a ∈ next c ∧ a ∉ c :: s.visited := mem_backlog_discoverAll
  rw [hvisited, hbacklog, h.nodup.mem_erase_iff, List.mem_cons]
  tauto

/-- **A round keeps the invariant**, whichever node is taken. -/
theorem Inv.visit (h : Inv next start s) (hc : c ∈ s.backlog) :
    Inv next start (s.visit next c) := by
  have hvisited : (s.visit next c).visited = c :: s.visited := visited_discoverAll
  have hreach : Reaches next start c := h.reaches c (Or.inl hc)
  refine ⟨nodup_discoverAll (h.nodup.erase c), ?_, ?_, ?_, ?_, ?_⟩
  · rw [hvisited]
    exact List.nodup_cons.mpr ⟨h.notMem c hc, h.nodup_visited⟩
  · intro a ha
    rw [hvisited, List.mem_cons]
    rcases mem_backlog_discoverAll.mp ha with ha | ⟨-, ha⟩
    · obtain ⟨hne, ha⟩ := h.nodup.mem_erase_iff.mp ha
      rintro (rfl | hv)
      · exact hne rfl
      · exact h.notMem a ha hv
    · intro hv
      exact ha (List.mem_cons.mpr hv)
  · intro a ha
    rcases (mem_visit h).mp ha with (rfl | ha) | ha
    · exact hreach
    · exact h.reaches a ha
    · exact hreach.tail ha
  · exact (mem_visit h).mpr (Or.inl (Or.inr h.start))
  · intro a ha b hb
    rw [hvisited, List.mem_cons] at ha
    rcases ha with rfl | ha
    · exact (mem_visit h).mpr (Or.inr hb)
    · exact (mem_visit h).mpr (Or.inl (Or.inr (h.closed a ha b hb)))

omit [DecidableEq α] in
/-- **At the end** all that can be reached has been visited. -/
theorem Inv.mem_visited_iff (h : Inv next start s) (hend : s.backlog = []) {a : α} :
    a ∈ s.visited ↔ Reaches next start a := by
  have hor : ∀ b, b ∈ s.backlog ∨ b ∈ s.visited → b ∈ s.visited := by
    rw [hend]
    rintro b (hb | hb)
    · cases hb
    · exact hb
  constructor
  · intro ha
    exact h.reaches a (Or.inr ha)
  · intro hreach
    induction hreach with
    | refl => exact hor _ h.start
    | tail _ hb ih => exact hor _ (h.closed _ ih _ hb)

end Kept

end Search

end SmartCore
