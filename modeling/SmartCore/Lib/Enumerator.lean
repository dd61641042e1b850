import Mathlib.Data.List.Forall2
import Mathlib.Tactic.Common

/-!
# Enumerators

An enumerator has a state that shows a value, can be moved to the next value, and can be reset. It
tells whether there is still a value to show.

`E.Lists full final s rest` says that in the state `s` the values `rest` are still to come, and after
a reset the values `full`, and `final` is what it shows when there is nothing to come. Of a value
that is `none` nothing is known but that it is there. `Lists` is the largest such relation, so it is
proved by giving an invariant.

`E.visits n s` are the values that a loop sees which is stopped after `n` rounds. With enough time it
sees all that is to come (`Lists.visits`). What all loops see determines what is listed, if an
enumerator that is at its end stays there (`lists_of_visits`).
-/

namespace SmartCore

structure Enumerator (V : Type) where
  State : Type
  start : State
  reset : State → State
  next : State → State
  bool : State → Bool
  deref : State → V

namespace Enumerator

variable {V : Type} {E : Enumerator V} {full rest : List (Option V)} {final o : Option V}
  {s : E.State} {v : V}

/-- The value is the one that is known, if one is. -/
def Known (v : V) (o : Option V) : Prop := ∀ w ∈ o, v = w

theorem known_none (v : V) : Known v none := fun _ h => by cases h

theorem known_some {v w : V} : Known v (some w) ↔ v = w :=
  ⟨fun h => h w rfl, fun h _ hx => h.trans (Option.some.inj hx)⟩

/-- What can be seen. -/
structure Shows (E : Enumerator V) (final : Option V) (s : E.State) (rest : List (Option V)) :
    Prop where
  bool : E.bool s = !rest.isEmpty
  deref : Known (E.deref s) (rest.headD final)

/-- An invariant that ties the states to the values that are to come. -/
structure Invariant (E : Enumerator V) (full : List (Option V)) (final : Option V)
    (R : E.State → List (Option V) → Prop) : Prop where
  shows : ∀ s rest, R s rest → E.Shows final s rest
  next : ∀ s rest, R s rest → R (E.next s) rest.tail
  reset : ∀ s rest, R s rest → R (E.reset s) full

def Lists (E : Enumerator V) (full : List (Option V)) (final : Option V) (s : E.State)
    (rest : List (Option V)) : Prop :=
  ∃ R, E.Invariant full final R ∧ R s rest

namespace Lists

theorem bool (h : E.Lists full final s rest) : E.bool s = !rest.isEmpty := by
  obtain ⟨R, hR, hs⟩ := h
  exact (hR.shows s rest hs).bool

theorem deref (h : E.Lists full final s rest) : Known (E.deref s) (rest.headD final) := by
  obtain ⟨R, hR, hs⟩ := h
  exact (hR.shows s rest hs).deref

theorem next (h : E.Lists full final s rest) : E.Lists full final (E.next s) rest.tail := by
  obtain ⟨R, hR, hs⟩ := h
  exact ⟨R, hR, hR.next s rest hs⟩

theorem reset (h : E.Lists full final s rest) : E.Lists full final (E.reset s) full := by
  obtain ⟨R, hR, hs⟩ := h
  exact ⟨R, hR, hR.reset s rest hs⟩

/-- Less may be known of what is shown at the end. -/
theorem weaken {final' : Option V} (h : E.Lists full final s rest)
    (hfinal : ∀ v ∈ final', v ∈ final) : E.Lists full final' s rest := by
  obtain ⟨R, hR, hs⟩ := h
  refine ⟨R, ⟨fun s rest hR' => ?_, hR.next, hR.reset⟩, hs⟩
  obtain ⟨hbool, hderef⟩ := hR.shows s rest hR'
  refine ⟨hbool, ?_⟩
  cases rest with
  | nil => exact fun w hw => hderef w (hfinal w hw)
  | cons o rest => exact hderef

end Lists

/-- The states a program can bring an enumerator to. -/
inductive Reached (E : Enumerator V) : E.State → Prop where
  | start : Reached E E.start
  | next {s : E.State} (h : Reached E s) : Reached E (E.next s)
  | reset {s : E.State} (h : Reached E s) : Reached E (E.reset s)

theorem Lists.reached (h : E.Lists full final E.start rest) (hs : E.Reached s) :
    ∃ rest', E.Lists full final s rest' := by
  induction hs with
  | start => exact ⟨rest, h⟩
  | next _ ih =>
    obtain ⟨rest', h'⟩ := ih
    exact ⟨rest'.tail, h'.next⟩
  | reset _ ih =>
    obtain ⟨rest', h'⟩ := ih
    exact ⟨full, h'.reset⟩

/-- The values a loop sees. `none` if it is stopped before the end. -/
def visits (E : Enumerator V) : ℕ → E.State → Option (List V)
  | 0, s => if E.bool s then none else some []
  | n + 1, s => if E.bool s then (visits E n (E.next s)).map (E.deref s :: ·) else some []

/-- With time for all values, the loop sees them all. -/
theorem Lists.visits (h : E.Lists full final s rest) {n : ℕ} (hn : rest.length ≤ n) :
    ∃ vs, E.visits n s = some vs ∧ List.Forall₂ Known vs rest := by
  induction n generalizing s rest with
  | zero =>
    obtain rfl := List.eq_nil_of_length_eq_zero (Nat.le_zero.mp hn)
    exact ⟨[], by simp [Enumerator.visits, h.bool], .nil⟩
  | succ n ih =>
    cases rest with
    | nil => exact ⟨[], by simp [Enumerator.visits, h.bool], .nil⟩
    | cons o rest =>
      obtain ⟨vs, hvs, hknown⟩ := ih h.next (by simpa using hn)
      refine ⟨E.deref s :: vs, ?_, .cons h.deref hknown⟩
      have hnext : E.visits n (E.next s) = some vs := hvs
      simp [Enumerator.visits, h.bool, hnext]

theorem known_map_some {vs ws : List V} (h : List.Forall₂ Known vs (ws.map some)) : vs = ws := by
  induction ws generalizing vs with
  | nil =>
    cases h
    rfl
  | cons w ws ih =>
    cases h with
    | cons hv h => rw [known_some.mp hv, ih h]

/-- If all values are known, the loop sees just these. -/
theorem Lists.visits_known {vs : List V} (h : E.Lists full final s (vs.map some)) {n : ℕ}
    (hn : vs.length ≤ n) : E.visits n s = some vs := by
  obtain ⟨ws, hws, hknown⟩ := h.visits (n := n) (by rwa [List.length_map])
  rw [hws, known_map_some hknown]

/-- Time makes no difference for a loop that comes to its end. -/
theorem visits_mono {n m : ℕ} {vs : List V} (h : E.visits n s = some vs) (hnm : n ≤ m) :
    E.visits m s = some vs := by
  induction n generalizing s m vs with
  | zero =>
    unfold visits at h
    split_ifs at h with hbool
    cases m <;> simp [visits, hbool, Option.some.inj h]
  | succ n ih =>
    obtain ⟨m, rfl⟩ : ∃ m', m = m' + 1 := ⟨m - 1, by omega⟩
    unfold visits at h ⊢
    split_ifs at h ⊢ with hbool
    · obtain ⟨ws, hws, rfl⟩ := Option.map_eq_some_iff.mp h
      rw [ih hws (by omega)]
      rfl
    · exact h

/-- Two enumerators that look the same in a loop. -/
theorem visits_congr {E E' : Enumerator V} {R : E.State → E'.State → Prop}
    (h : ∀ s s', R s s' → E.bool s = E'.bool s' ∧ E.deref s = E'.deref s' ∧
      (E.bool s = true → R (E.next s) (E'.next s'))) {s : E.State} {s' : E'.State} (hs : R s s')
    (n : ℕ) : E.visits n s = E'.visits n s' := by
  induction n generalizing s s' with
  | zero => rw [visits, visits, (h s s' hs).1]
  | succ n ih =>
    obtain ⟨hbool, hderef, hnext⟩ := h s s' hs
    rw [visits, visits, hbool, hderef]
    split_ifs with hgo
    · rw [ih (hnext (hbool.trans hgo))]
    · rfl

/-- A loop from `s` comes to its end, and sees these values. -/
def Yields (E : Enumerator V) (s : E.State) (vs : List V) : Prop := ∃ n, E.visits n s = some vs

theorem Yields.unique {vs ws : List V} (h : E.Yields s vs) (h' : E.Yields s ws) : vs = ws := by
  obtain ⟨n, hn⟩ := h
  obtain ⟨m, hm⟩ := h'
  have hn := visits_mono hn (Nat.le_max_left n m)
  rw [visits_mono hm (Nat.le_max_right n m)] at hn
  exact (Option.some.inj hn).symm

/-- At its end it stays there. -/
def Stays (E : Enumerator V) : Prop :=
  ∀ s, E.Reached s → E.bool s = false → E.bool (E.next s) = false

theorem Lists.stays (h : E.Lists full final E.start rest) : E.Stays := by
  intro s hs hbool
  obtain ⟨rest', h'⟩ := h.reached hs
  have hnext := h'.next.bool
  rw [h'.bool] at hbool
  cases rest' with
  | nil => exact hnext
  | cons o rest' => cases hbool

/-- All values are to come at the start and after each reset. -/
def Enumerates (E : Enumerator V) (vs : List V) : Prop :=
  E.Yields E.start vs ∧ ∀ s, E.Reached s → E.Yields (E.reset s) vs

theorem Lists.enumerates {vs : List V}
    (h : E.Lists (vs.map some) final E.start (vs.map some)) : E.Enumerates vs := by
  refine ⟨⟨vs.length, h.visits_known (Nat.le_refl _)⟩, fun s hs => ?_⟩
  obtain ⟨rest, hrest⟩ := h.reached hs
  exact ⟨vs.length, hrest.reset.visits_known (Nat.le_refl _)⟩

theorem lists_of_visits {vs : List V} (hstays : E.Stays) (h : E.Enumerates vs) :
    E.Lists (vs.map some) none E.start (vs.map some) := by
  refine ⟨fun s rest => E.Reached s ∧ ∃ ws, rest = ws.map some ∧ E.Yields s ws, ⟨?_, ?_, ?_⟩,
    .start, vs, rfl, h.1⟩
  · rintro s _ ⟨hs, ws, rfl, n, hn⟩
    cases n with
    | zero =>
      unfold visits at hn
      split_ifs at hn with hbool
      obtain rfl := Option.some.inj hn
      exact ⟨by simp [hbool], known_none _⟩
    | succ n =>
      unfold visits at hn
      split_ifs at hn with hbool
      · obtain ⟨ws', -, rfl⟩ := Option.map_eq_some_iff.mp hn
        exact ⟨by simp [hbool], known_some.mpr rfl⟩
      · obtain rfl := Option.some.inj hn
        exact ⟨by simp [hbool], known_none _⟩
  · rintro s _ ⟨hs, ws, rfl, n, hn⟩
    refine ⟨hs.next, ws.tail, List.map_tail.symm, ?_⟩
    have hend : E.bool s = false → ws = [] → E.Yields (E.next s) ws.tail := fun hbool hws =>
      ⟨0, by simp [visits, hstays s hs hbool, hws]⟩
    cases n with
    | zero =>
      unfold visits at hn
      split_ifs at hn with hbool
      exact hend (by simpa using hbool) (Option.some.inj hn).symm
    | succ n =>
      unfold visits at hn
      split_ifs at hn with hbool
      · obtain ⟨ws', hws, rfl⟩ := Option.map_eq_some_iff.mp hn
        exact ⟨n, hws⟩
      · exact hend (by simpa using hbool) (Option.some.inj hn).symm
  · rintro s _ ⟨hs, -⟩
    exact ⟨hs.reset, vs, rfl, h.2 s hs⟩

end Enumerator

end SmartCore
