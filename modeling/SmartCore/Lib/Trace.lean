import Mathlib.Data.List.Induction
import Mathlib.Order.Basic
import Mathlib.Tactic.Common

/-!
# Traces and forests

A trace is the list of what has happened, the last thing at its end. `Separated p q` says that
between two things of the kind `p` there is always one of the kind `q`, and `Since p q` that there
has been a `q` since the last `p`. Traces grow at the end, and `Separated.snoc` says what `Since` is
for: it is what another `p` needs.

A forest is given by the parent of each node. Parents come before their children, so two siblings
have no descendant in common (`Under.siblings`).
-/

namespace SmartCore

section Traces

variable {α : Type} {p q : α → Prop} {l : List α} {e : α}

def Since (p q : α → Prop) (l : List α) : Prop :=
  ∀ pre x post, l = pre ++ x :: post → p x → ∃ y ∈ post, q y

def Separated (p q : α → Prop) (l : List α) : Prop :=
  ∀ pre x mid y post, l = pre ++ x :: (mid ++ y :: post) → p x → p y → ∃ z ∈ mid, q z

/-- Where an element of a longer trace stands. -/
theorem snoc_eq_append_cons {pre post : List α} {x : α} (h : l ++ [e] = pre ++ x :: post) :
    x = e ∧ pre = l ∧ post = [] ∨ ∃ post', post = post' ++ [e] ∧ l = pre ++ x :: post' := by
  rcases List.eq_nil_or_concat post with rfl | ⟨post', y, rfl⟩
  · obtain ⟨hl, he⟩ := List.append_inj' h rfl
    exact Or.inl ⟨(List.singleton_inj.mp he).symm, hl.symm, rfl⟩
  · rw [List.concat_eq_append, ← List.cons_append, ← List.append_assoc] at h
    obtain ⟨hl, he⟩ := List.append_inj' h rfl
    rw [← List.singleton_inj.mp he]
    exact Or.inr ⟨post', by rw [List.concat_eq_append], hl⟩

theorem Since.of_forall_not (h : ∀ x ∈ l, ¬ p x) : Since p q l := by
  intro pre x post heq hx
  exact absurd hx (h x (by simp [heq]))

/-- Something else happens. -/
theorem Since.snoc (h : Since p q l) (he : ¬ p e) : Since p q (l ++ [e]) := by
  intro pre x post heq hx
  rcases snoc_eq_append_cons heq with ⟨rfl, -, -⟩ | ⟨post', rfl, hl⟩
  · exact absurd hx he
  · obtain ⟨y, hy, hq⟩ := h pre x post' hl hx
    exact ⟨y, List.mem_append_left _ hy, hq⟩

/-- A `q` happens. -/
theorem Since.now (hp : ¬ p e) (hq : q e) : Since p q (l ++ [e]) := by
  intro pre x post heq hx
  rcases snoc_eq_append_cons heq with ⟨rfl, -, -⟩ | ⟨post', rfl, -⟩
  · exact absurd hx hp
  · exact ⟨e, by simp, hq⟩

theorem Separated.nil : Separated p q [] := by
  intro pre x mid y post heq
  simp at heq

theorem Separated.snoc (h : Separated p q l) (he : p e → Since p q l) :
    Separated p q (l ++ [e]) := by
  intro pre x mid y post heq hx hy
  rw [← List.cons_append, ← List.append_assoc] at heq
  rcases snoc_eq_append_cons heq with ⟨rfl, hl, -⟩ | ⟨post', -, hl⟩
  · exact he hy pre x mid hl.symm hx
  · exact h pre x mid y post' (by rw [hl]; simp) hx hy

end Traces

section Forests

variable {parent : ℕ → Option ℕ} {a b c : ℕ}

/-- `c` is `a` or a descendant of it. -/
inductive Under (parent : ℕ → Option ℕ) (a : ℕ) : ℕ → Prop where
  | refl : Under parent a a
  | step {b c : ℕ} (hparent : parent c = some b) (h : Under parent a b) : Under parent a c

theorem Under.le (hlt : ∀ b c, parent c = some b → b < c) (h : Under parent a c) : a ≤ c := by
  induction h with
  | refl => exact Nat.le_refl a
  | step hparent _ ih => exact Nat.le_trans ih (Nat.le_of_lt (hlt _ _ hparent))

theorem Under.of_child (hparent : parent b = some a) (h : Under parent b c) :
    Under parent a c := by
  induction h with
  | refl => exact .step hparent .refl
  | step hstep _ ih => exact .step hstep ih

/-- Not a proper descendant of a sibling. -/
theorem Under.not_parent (hlt : ∀ b c, parent c = some b → b < c) {d : ℕ}
    (hparent : parent a = some d) : ¬ Under parent a d := by
  intro h
  exact absurd (hlt d a hparent) (Nat.not_lt.mpr (h.le hlt))

theorem Under.siblings (hlt : ∀ b c, parent c = some b → b < c) (hab : parent a = parent b)
    (ha : Under parent a c) (hb : Under parent b c) : a = b := by
  induction ha with
  | refl =>
    cases hb with
    | refl => rfl
    | step hparent h => exact absurd h (not_parent hlt (hab ▸ hparent))
  | step hparent h ih =>
    cases hb with
    | refl => exact absurd h (not_parent hlt (hab.trans hparent))
    | step hparent' h' =>
      obtain rfl := Option.some.inj (hparent.symm.trans hparent')
      exact ih h'

end Forests

end SmartCore
