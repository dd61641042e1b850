import Mathlib.Data.List.Induction
import Mathlib.Logic.Relation
import Mathlib.Tactic.Common

/-!
# Code with state and faults

Imperative code is a value of `EStateM ε σ`: it reads and writes a state `σ`, and it either
returns or stops with a fault `ε`. A fault keeps the state it happened in, because that state
is what is left in memory when a process dies.

`wp x Q E s` says what one execution from `s` ends in: `Q` if it returns, `E` if it stops. The
rules below compute `wp` through every construct the models use, so a specification is proved
by rewriting with them and then citing the specifications of the functions called.

* `wp_mono` is the rule of consequence, and
* `wp_runInputs` lifts an invariant of one input to every sequence of inputs.
-/

namespace SmartCore

variable {ε σ α β ι : Type}

/-- `Q` holds if `x` returns from `s`, and `E` holds if it stops with a fault. -/
def wp (x : EStateM ε σ α) (Q : α → σ → Prop) (E : ε → σ → Prop) (s : σ) : Prop :=
  match x s with
  | .ok a s' => Q a s'
  | .error e s' => E e s'

/-! ## Helper statements -/

/-- An assertion: continue if `c` holds, stop with `e` otherwise. -/
def require (c : Bool) (e : ε) : EStateM ε σ Unit :=
  if c then pure () else throw e

/-- Dereference a pointer that may be null. -/
def deref (o : Option α) (e : ε) : EStateM ε σ α :=
  match o with
  | some a => pure a
  | none => throw e

/-- Run `x` only if `c` holds. -/
def runIf (c : Prop) [Decidable c] (x : EStateM ε σ Unit) : EStateM ε σ Unit :=
  if c then x else pure ()

/-- Feed a list of inputs to `step`, one after the other, until one of them faults. -/
def runInputs (step : ι → EStateM ε σ Unit) : List ι → EStateM ε σ Unit
  | [] => pure ()
  | i :: is => do
    step i
    runInputs step is

/-- Whether `x` returns from `s`, with a result and a state that pass the test `p`. -/
def returns (x : EStateM ε σ α) (p : α → σ → Bool) (s : σ) : Bool :=
  match x s with
  | .ok a s' => p a s'
  | .error _ _ => false

theorem exists_of_returns {x : EStateM ε σ α} {p : α → σ → Bool} {s : σ}
    (h : returns x p s = true) : ∃ a s', x s = .ok a s' ∧ p a s' = true := by
  unfold returns at h
  cases hx : x s with
  | ok a s' =>
    rw [hx] at h
    exact ⟨a, s', rfl, h⟩
  | error e s' =>
    rw [hx] at h
    cases h

/-! ## The rules -/

section Rules

variable {Q : α → σ → Prop} {E : ε → σ → Prop} {s : σ}

@[simp] theorem wp_pure (a : α) : wp (pure a : EStateM ε σ α) Q E s ↔ Q a s := Iff.rfl

@[simp] theorem wp_throw (e : ε) : wp (throw e : EStateM ε σ α) Q E s ↔ E e s := Iff.rfl

@[simp] theorem wp_get {Q : σ → σ → Prop} : wp (get : EStateM ε σ σ) Q E s ↔ Q s s := Iff.rfl

@[simp] theorem wp_set {Q : PUnit → σ → Prop} (t : σ) :
    wp (set t : EStateM ε σ PUnit) Q E s ↔ Q ⟨⟩ t := Iff.rfl

@[simp] theorem wp_modify {Q : PUnit → σ → Prop} (f : σ → σ) :
    wp (modify f : EStateM ε σ PUnit) Q E s ↔ Q ⟨⟩ (f s) := Iff.rfl

@[simp] theorem wp_bind {Q : β → σ → Prop} (x : EStateM ε σ α) (f : α → EStateM ε σ β) :
    wp (x >>= f) Q E s ↔ wp x (fun a s' => wp (f a) Q E s') E s := by
  show wp (EStateM.bind x f) Q E s ↔ _
  unfold wp EStateM.bind
  cases x s <;> rfl

@[simp] theorem wp_map {Q : β → σ → Prop} (f : α → β) (x : EStateM ε σ α) :
    wp (f <$> x) Q E s ↔ wp x (fun a s' => Q (f a) s') E s := by
  show wp (EStateM.map f x) Q E s ↔ _
  unfold wp EStateM.map
  cases x s <;> rfl

theorem wp_ite {c : Prop} [Decidable c] (x y : EStateM ε σ α) :
    wp (if c then x else y) Q E s ↔ (c → wp x Q E s) ∧ (¬ c → wp y Q E s) := by
  split_ifs with h <;> simp [h]

@[simp] theorem wp_require {Q : Unit → σ → Prop} (c : Bool) (e : ε) :
    wp (require c e) Q E s ↔ (c = true → Q () s) ∧ (c = false → E e s) := by
  cases c <;> simp [require]

@[simp] theorem wp_deref (o : Option α) (e : ε) :
    wp (deref o e) Q E s ↔ (∀ a, o = some a → Q a s) ∧ (o = none → E e s) := by
  cases o <;> simp [deref]

@[simp] theorem wp_runIf {Q : Unit → σ → Prop} (c : Prop) [Decidable c] (x : EStateM ε σ Unit) :
    wp (runIf c x) Q E s ↔ (c → wp x Q E s) ∧ (¬ c → Q () s) := by
  unfold runIf
  rw [wp_ite, wp_pure]

@[simp] theorem wp_ofExcept (x : Except ε α) :
    wp (MonadExcept.ofExcept x : EStateM ε σ α) Q E s ↔
      (∀ a, x = .ok a → Q a s) ∧ ∀ e, x = .error e → E e s := by
  cases x <;> simp [MonadExcept.ofExcept]

/-- A handler runs in the state that the fault left. -/
@[simp] theorem wp_tryCatch (x : EStateM ε σ α) (h : ε → EStateM ε σ α) :
    wp (tryCatch x h) Q E s ↔ wp x Q (fun e s' => wp (h e) Q E s') s := by
  show wp (EStateM.tryCatch x h) Q E s ↔ _
  unfold wp EStateM.tryCatch
  cases x s <;> rfl

/-- The rule of consequence. -/
theorem wp_mono {Q' : α → σ → Prop} {E' : ε → σ → Prop} {x : EStateM ε σ α}
    (h : wp x Q E s) (hQ : ∀ a s', Q a s' → Q' a s') (hE : ∀ e s', E e s' → E' e s') :
    wp x Q' E' s := by
  unfold wp at h ⊢
  cases hx : x s with
  | ok a s' => rw [hx] at h; exact hQ a s' h
  | error e s' => rw [hx] at h; exact hE e s' h

/-- Two specifications of one execution. -/
theorem wp_and {Q' : α → σ → Prop} {E' : ε → σ → Prop} {x : EStateM ε σ α} (h : wp x Q E s)
    (h' : wp x Q' E' s) :
    wp x (fun a s' => Q a s' ∧ Q' a s') (fun e s' => E e s' ∧ E' e s') s := by
  unfold wp at h h' ⊢
  cases hx : x s with
  | ok a s' => rw [hx] at h h'; exact ⟨h, h'⟩
  | error e s' => rw [hx] at h h'; exact ⟨h, h'⟩

/-- What is returned is what was computed. -/
theorem wp_and_eq {x : EStateM ε σ α} (h : wp x Q E s) :
    wp x (fun a t => Q a t ∧ x s = .ok a t) E s := by
  unfold wp at h ⊢
  cases hx : x s with
  | ok a t => rw [hx] at h; exact ⟨h, rfl⟩
  | error e t => rw [hx] at h; exact h

theorem wp_self (x : EStateM ε σ α) (s : σ) :
    wp x (fun a t => x s = .ok a t) (fun e t => x s = .error e t) s := by
  unfold wp
  cases x s <;> rfl

/-- What cannot stop returns. -/
theorem exists_of_wp {x : EStateM ε σ α} (h : wp x Q (fun _ _ => False) s) :
    ∃ a s', x s = .ok a s' ∧ Q a s' := by
  rw [wp] at h
  cases hx : x s with
  | ok a s' =>
    rw [hx] at h
    exact ⟨a, s', rfl, h⟩
  | error e s' =>
    rw [hx] at h
    exact h.elim

/-- Nothing is claimed of how `x` ends. -/
theorem wp_trivial (x : EStateM ε σ α) : wp x (fun _ _ => True) (fun _ _ => True) s := by
  unfold wp
  cases x s <;> trivial

end Rules

/-! ## Loops -/

section Loops

variable {E : ε → σ → Prop}

theorem wp_forM {I : σ → Prop} {f : α → EStateM ε σ PUnit} {l : List α} {s : σ}
    (hf : ∀ a ∈ l, ∀ s, I s → wp (f a) (fun _ s' => I s') E s) (hs : I s) :
    wp (l.forM f) (fun _ s' => I s') E s := by
  induction l generalizing s with
  | nil => exact hs
  | cons a l ih =>
    show wp (f a >>= fun _ => l.forM f) _ _ s
    rw [wp_bind]
    exact wp_mono (hf a (by simp) s hs)
      (fun _ s' h' => ih (fun a' ha' => hf a' (by simp [ha'])) h') fun _ _ h' => h'

/-- What each round computes is related to its element. -/
theorem wp_mapM {I : σ → Prop} {R : α → β → Prop} {f : α → EStateM ε σ β} {l : List α} {s : σ}
    (hf : ∀ a ∈ l, ∀ s, I s → wp (f a) (fun b s' => I s' ∧ R a b) E s) (hs : I s) :
    wp (l.mapM f) (fun bs s' => I s' ∧ List.Forall₂ R l bs) E s := by
  induction l generalizing s with
  | nil => exact ⟨hs, List.Forall₂.nil⟩
  | cons a l ih =>
    rw [List.mapM_cons, wp_bind]
    refine wp_mono (hf a (by simp) s hs) (fun b s' h' => ?_) fun _ _ h' => h'
    rw [wp_bind]
    exact wp_mono (ih (fun a' ha' => hf a' (by simp [ha'])) h'.1)
      (fun bs s'' h'' => ⟨h''.1, List.Forall₂.cons h'.2 h''.2⟩) fun _ _ h'' => h''

end Loops

/-! ## Faults that do not happen -/

section Avoids

variable {e e' : ε} {s : σ}

/-- `x` never stops with the fault `e`. -/
def Avoids (e : ε) (x : EStateM ε σ α) : Prop :=
  ∀ s, wp x (fun _ _ => True) (fun e' _ => e' ≠ e) s

theorem Avoids.pure (a : α) : Avoids e (pure a : EStateM ε σ α) := fun _ => trivial

theorem Avoids.get : Avoids e (get : EStateM ε σ σ) := fun _ => trivial

theorem Avoids.set (t : σ) : Avoids e (set t : EStateM ε σ PUnit) := fun _ => trivial

theorem Avoids.modify (f : σ → σ) : Avoids e (modify f : EStateM ε σ PUnit) := fun _ => trivial

theorem Avoids.throw (h : e' ≠ e) : Avoids e (throw e' : EStateM ε σ α) := fun _ => h

theorem Avoids.bind {x : EStateM ε σ α} {f : α → EStateM ε σ β} (hx : Avoids e x)
    (hf : ∀ a, Avoids e (f a)) : Avoids e (x >>= f) := by
  intro s
  rw [wp_bind]
  exact wp_mono (hx s) (fun a s' _ => hf a s') fun _ _ h => h

theorem Avoids.ite {c : Prop} [Decidable c] {x y : EStateM ε σ α} (hx : Avoids e x)
    (hy : Avoids e y) : Avoids e (if c then x else y) := by
  split_ifs
  · exact hx
  · exact hy

theorem Avoids.require {c : Bool} (h : e' ≠ e) : Avoids (σ := σ) e (require c e') := by
  intro s
  rw [wp_require]
  exact ⟨fun _ => trivial, fun _ => h⟩

theorem Avoids.deref {o : Option α} (h : e' ≠ e) : Avoids (σ := σ) e (deref o e') := by
  intro s
  rw [wp_deref]
  exact ⟨fun _ _ => trivial, fun _ => h⟩

end Avoids


/-! ## Inversion -/

theorem bind_eq_ok {x : EStateM ε σ α} {f : α → EStateM ε σ β} {s s' : σ} {b : β} :
    (x >>= f) s = .ok b s' ↔ ∃ a t, x s = .ok a t ∧ f a t = .ok b s' := by
  show EStateM.bind x f s = _ ↔ _
  unfold EStateM.bind
  cases hx : x s with
  | ok a t =>
    constructor
    · intro h
      exact ⟨a, t, rfl, h⟩
    · intro h
      obtain ⟨a', t', heq, h⟩ := h
      cases heq
      exact h
  | error e t =>
    constructor
    · intro h
      cases h
    · intro h
      obtain ⟨a', t', heq, -⟩ := h
      cases heq

theorem bind_of_ok {x : EStateM ε σ α} {f : α → EStateM ε σ β} {s t : σ} {a : α}
    (h : x s = .ok a t) : (x >>= f) s = f a t := by
  show EStateM.bind x f s = _
  rw [EStateM.bind, h]

theorem bind_of_error {x : EStateM ε σ α} {f : α → EStateM ε σ β} {s t : σ} {e : ε}
    (h : x s = .error e t) : (x >>= f) s = .error e t := by
  show EStateM.bind x f s = _
  rw [EStateM.bind, h]

theorem of_wp_ok {x : EStateM ε σ α} {Q : α → σ → Prop} {E : ε → σ → Prop} {s t : σ} {a : α}
    (h : wp x Q E s) (hx : x s = .ok a t) : Q a t := by
  rw [wp, hx] at h
  exact h

/-- What was computed before. -/
theorem wp_bind_of_ok {x : EStateM ε σ α} {f : α → EStateM ε σ β} {Q : β → σ → Prop}
    {E : ε → σ → Prop} {s t : σ} {a : α} (hx : x s = .ok a t) :
    wp (x >>= f) Q E s ↔ wp (f a) Q E t := by
  rw [wp, bind_of_ok hx]
  rfl

/-- If the handler cannot return what was returned, nothing was handled. -/
theorem ok_of_tryCatch {x : EStateM ε σ α} {h : ε → EStateM ε σ α} {s s' : σ} {a : α}
    (heq : tryCatch x h s = .ok a s') (hh : ∀ e t t', h e t ≠ .ok a t') : x s = .ok a s' := by
  have heq : EStateM.tryCatch x h s = .ok a s' := heq
  unfold EStateM.tryCatch at heq
  cases hx : x s with
  | ok b t =>
    rw [hx] at heq
    exact heq
  | error e t =>
    rw [hx] at heq
    exact absurd heq (hh e _ s')

/-! ## Runs -/

section Runs

variable {step : ι → EStateM ε σ Unit}

theorem runInputs_append (pre : List ι) (i : ι) (s : σ) :
    runInputs step (pre ++ [i]) s = (runInputs step pre >>= fun _ => step i) s := by
  induction pre generalizing s with
  | nil =>
    show EStateM.bind (step i) (fun _ => pure ()) s = EStateM.bind (pure ()) (fun _ => step i) s
    unfold EStateM.bind
    cases hi : step i s <;> simp [pure, EStateM.pure, hi]
  | cons j pre ih =>
    show EStateM.bind (step j) (fun _ => runInputs step (pre ++ [i])) s =
      EStateM.bind (EStateM.bind (step j) fun _ => runInputs step pre) (fun _ => step i) s
    unfold EStateM.bind
    cases hj : step j s with
    | ok a s' => exact ih s'
    | error e s' => rfl

theorem runInputs_append_of_ok {pre : List ι} (post : List ι) {s t : σ}
    (h : runInputs step pre s = .ok () t) :
    runInputs step (pre ++ post) s = runInputs step post t := by
  induction pre generalizing s with
  | nil =>
    cases h
    rfl
  | cons i pre ih =>
    obtain ⟨a, u, hi, hpre⟩ := bind_eq_ok.mp h
    show EStateM.bind (step i) (fun _ => runInputs step (pre ++ post)) s = _
    rw [EStateM.bind, hi]
    exact ih hpre

theorem wp_runInputs_append {Q : Unit → σ → Prop} {E : ε → σ → Prop} (pre post : List ι) (s : σ) :
    wp (runInputs step (pre ++ post)) Q E s ↔
      wp (runInputs step pre) (fun _ t => wp (runInputs step post) Q E t) E s := by
  induction pre generalizing s with
  | nil => rfl
  | cons i pre ih =>
    rw [List.cons_append, runInputs, wp_bind, runInputs, wp_bind]
    simp only [ih]

/-- An invariant that every input keeps holds after every sequence of inputs. The premise may use
which inputs came before, and that they led to the state at hand. -/
theorem wp_runInputs {Inv : σ → Prop} {E : ε → σ → Prop} {s₀ : σ} {is : List ι} (h₀ : Inv s₀)
    (hstep : ∀ pre i post s, is = pre ++ i :: post → runInputs step pre s₀ = .ok () s → Inv s →
      wp (step i) (fun _ s' => Inv s') E s) :
    wp (runInputs step is) (fun _ s' => Inv s') E s₀ := by
  induction is using List.reverseRecOn with
  | nil => exact h₀
  | append_singleton pre i ih =>
    have hpre : wp (runInputs step pre) (fun _ s' => Inv s') E s₀ :=
      ih fun pre' j post s heq => hstep pre' j (post ++ [i]) s (by simp [heq])
    have hlast : wp (runInputs step (pre ++ [i])) (fun _ s' => Inv s') E s₀ ↔
        wp (runInputs step pre >>= fun _ => step i) (fun _ s' => Inv s') E s₀ := by
      unfold wp
      rw [runInputs_append]
    rw [hlast, wp_bind]
    unfold wp at hpre ⊢
    cases hrun : runInputs step pre s₀ with
    | ok a s =>
      rw [hrun] at hpre
      exact hstep pre i [] s rfl hrun hpre
    | error e s =>
      rw [hrun] at hpre
      exact hpre

end Runs

end SmartCore
