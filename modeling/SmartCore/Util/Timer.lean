import Mathlib.Data.Int.Order.Basic
import Mathlib.Logic.Function.Basic
import Mathlib.Logic.Relation
import Mathlib.Data.List.Basic
import Mathlib.Data.List.MinMax
import Mathlib.Data.List.Pairwise
import Mathlib.Data.Prod.Lex

/-!
# Virtual timers

A clock has a queue of events, the earliest first. Each wait on a timer is an event in the queue and
in the list of its timer. When the clock advances, the events that are due are taken from the queue
and triggered one after another; when a timer is cancelled, so are its events. Callbacks may use all
timers, so in the middle of a loop the events are not what they were before it. A run is a list of
single steps, with the loops that are not done on a stack.

Each callback that waits is called exactly once: with success when it is due, or aborted when it was
cancelled first. Only a callback that is aborted must not wait on its own timer again, since the
loop that has called it clears the list of the timer at its end: the new wait is then called even if
it is cancelled (`rearmed_succeeds`).

Sequence numbers are to keep the order in which events were enqueued, but each timer has its own. So
of two waits on different timers, for the same time, the second may be called before the first
(`tied_not_inOrder`), and there is no other disorder (`dispatches`).
-/

namespace SmartCore.Util.Timer

/-! ## The code -/

abbrev TimePoint := ℤ

/-- Events are known by the order in which they are enqueued. -/
abbrev EventId := ℕ

abbrev TimerId := ℕ

structure VirtualClockEvent where
  mWhen : TimePoint := 0
  mSeq : ℕ := 0
  mTriggered : Bool := false

/-- `operator<`. For purposes of priority queue, a timer is less than another timer if it occurs in
the future. -/
def VirtualClockEvent.less (e other : VirtualClockEvent) : Prop :=
  e.mWhen > other.mWhen ∨ e.mWhen = other.mWhen ∧ e.mSeq > other.mSeq

instance (e other : VirtualClockEvent) : Decidable (e.less other) := by
  unfold VirtualClockEvent.less
  infer_instance

structure VirtualTimer where
  mExpiryTime : TimePoint
  mEvents : List EventId := []
  mCancelled : Bool := false

/-- What `expires_at` and `expires_from_now` set. -/
inductive Expiry where
  | expires_at (t : TimePoint)
  | expires_from_now (d : ℤ)

def Expiry.time (now : TimePoint) : Expiry → TimePoint
  | .expires_at t => t
  | .expires_from_now d => now + d

/-- What is to be gone on with: a callback, the loop of `VirtualTimer::cancel`, with what is left of
it and what the timer is set to after it, or the loop of `cancelAllEvents`. -/
inductive Frame where
  | callback
  | cancel (timer : TimerId) (rest : List EventId) (expiry : Option Expiry)
  | cancelAllEvents

/-- A callback was called, with `operation_aborted` or with success. -/
structure Call where
  event : EventId
  aborted : Bool
  time : TimePoint

/-- The clock, with what is left of the loop of `advanceTo`, the events and the timers. `owner`,
`cancelled` and `calls` are what has happened: on which timer an event waits, whether it was
cancelled while it waited, and the calls. -/
structure State where
  mNow : TimePoint := 0
  mEvents : List EventId := []
  mFlushesIgnored : ℕ := 0
  toDispatch : Option (List EventId) := none
  frames : List Frame := []
  events : EventId → VirtualClockEvent := fun _ => {}
  made : ℕ := 0
  timers : TimerId → Option VirtualTimer := fun _ => none
  owner : EventId → TimerId := fun _ => 0
  cancelled : EventId → Bool := fun _ => false
  calls : List Call := []

namespace State

variable (s : State)

/-- `VirtualClockEvent::trigger` and `VirtualClockEvent::cancel`. -/
def call (aborted : Bool) (e : EventId) : State :=
  if (s.events e).mTriggered then s
  else
    { s with
      events := Function.update s.events e { s.events e with mTriggered := true }
      calls := s.calls ++ [⟨e, aborted, s.mNow⟩]
      frames := .callback :: s.frames }

/-- The event may be on top of the queue: no other event is greater. -/
def isTop (e : EventId) : Prop :=
  e ∈ s.mEvents ∧ ∀ e' ∈ s.mEvents, ¬ (s.events e).less (s.events e')

instance (e : EventId) : Decidable (s.isTop e) := by
  unfold isTop
  infer_instance

/-- By ignoring O(n) flushes, we batch the iterations together. -/
def flushCancelledEvents : State :=
  if s.mFlushesIgnored ≤ s.mEvents.length then { s with mFlushesIgnored := s.mFlushesIgnored + 1 }
  else
    { s with
      mEvents := s.mEvents.filter fun e => !(s.events e).mTriggered
      mFlushesIgnored := 0 }

/-- The first loop of `advanceTo`: the events that are due, in the order in which they are on top.
Those that are left are later. -/
def popDue : List EventId → State → Option State
  | [], s => if ∀ e ∈ s.mEvents, s.mNow < (s.events e).mWhen then some s else none
  | e :: toDispatch, s =>
    if s.isTop e ∧ (s.events e).mWhen ≤ s.mNow then
      popDue toDispatch { s with mEvents := s.mEvents.erase e }
    else none

def advanceTo (n : TimePoint) (toDispatch : List EventId) : Option State := do
  let s ← popDue toDispatch { s with mNow := n }
  some { s with toDispatch := some toDispatch }

/-- The loop of `VirtualTimer::cancel` runs over the events of the timer. C++ leaves open what
happens when they are changed meanwhile (`Undisturbed`); here it goes on with those that it was
begun with. -/
def iterating (timer : TimerId) : Bool :=
  s.frames.any fun
    | .cancel timer' _ _ => timer' = timer
    | _ => false

def expire (timer : TimerId) (expiry : Option Expiry) : State :=
  match expiry, s.timers timer with
  | some x, some t =>
    { s with
      timers := Function.update s.timers timer
        (some { t with mExpiryTime := x.time s.mNow, mCancelled := false }) }
  | _, _ => s

/-- `VirtualTimer::cancel`, and what `expires_at` and `expires_from_now` do after it. -/
def cancel (timer : TimerId) (t : VirtualTimer) (expiry : Option Expiry) : State :=
  if t.mCancelled then s.expire timer expiry
  else
    { s with
      timers := Function.update s.timers timer (some { t with mCancelled := true })
      frames := .cancel timer t.mEvents expiry :: s.frames
      cancelled := fun e =>
        s.cancelled e || (decide (e < s.made ∧ s.owner e = timer) && !(s.events e).mTriggered) }

/-- After its loop, `VirtualTimer::cancel` clears the events. -/
def finishCancel (timer : TimerId) (expiry : Option Expiry) : State :=
  let s := s.flushCancelledEvents
  let timers := Function.update s.timers timer
    ((s.timers timer).map fun t => { t with mEvents := [] })
  { s with timers }.expire timer expiry

def seq (t : VirtualTimer) : ℕ :=
  match t.mEvents.getLast? with
  | none => 0
  | some back => (s.events back).mSeq + 1

/-- A new event in the queue and on the timer. -/
def enqueue (timer : TimerId) (t : VirtualTimer) : State :=
  let ve := s.made
  { s with
    mEvents := s.mEvents ++ [ve]
    events := Function.update s.events ve { mWhen := t.mExpiryTime, mSeq := s.seq t }
    made := s.made + 1
    timers := Function.update s.timers timer (some { t with mEvents := t.mEvents ++ [ve] })
    owner := Function.update s.owner ve timer }

def async_wait (timer : TimerId) (t : VirtualTimer) : State :=
  if t.mCancelled then s else s.enqueue timer t

/-- The loop or the callback on top of the stack goes on. -/
def next (top : EventId) : Option State :=
  match s.frames with
  | .callback :: frames => some { s with frames }
  | .cancel timer (e :: rest) expiry :: frames =>
    some ({ s with frames := .cancel timer rest expiry :: frames }.call true e)
  | .cancel timer [] expiry :: frames => some ({ s with frames }.finishCancel timer expiry)
  | .cancelAllEvents :: frames =>
    if s.mEvents = [] then some { s with frames }
    else if s.isTop top then
      some ({ s with
        mEvents := s.mEvents.erase top
        cancelled := fun e => s.cancelled e || (decide (e = top) && !(s.events e).mTriggered)
        }.call true top)
    else none
  | [] =>
    match s.toDispatch with
    | some (e :: toDispatch) => some ({ s with toDispatch := some toDispatch }.call false e)
    | some [] => some { s with toDispatch := none }
    | none => none

end State

/-! ## Runs -/

/-- What the program and the callbacks do with timers. -/
inductive Op where
  | construct (timer : TimerId)
  | expires (timer : TimerId) (expiry : Expiry)
  | async_wait (timer : TimerId)
  | cancel (timer : TimerId)
  | cancelAllEvents

inductive Action where
  | op (op : Op)
  | advanceTo (n : TimePoint) (toDispatch : List EventId)
  | next (top : EventId)

namespace State

variable (s : State)

def doOp : Op → Option State
  | .construct timer =>
    if (s.timers timer).isNone then
      some { s with timers := Function.update s.timers timer (some { mExpiryTime := s.mNow }) }
    else none
  | .expires timer expiry => (s.timers timer).map fun t => s.cancel timer t (some expiry)
  | .async_wait timer => (s.timers timer).map fun t => s.async_wait timer t
  | .cancel timer => (s.timers timer).map fun t => s.cancel timer t none
  | .cancelAllEvents => some { s with frames := .cancelAllEvents :: s.frames }

/-- No loop is running. -/
def idle : Prop := s.frames = [] ∧ s.toDispatch = none

instance : Decidable s.idle :=
  decidable_of_iff (s.frames.isEmpty ∧ s.toDispatch.isNone) (by simp [idle])

/-- The program is running, or a callback. -/
def running : Bool :=
  match s.frames with
  | [] => s.toDispatch.isNone
  | .callback :: _ => true
  | _ => false

/-- One step. Loops go on when the callback that they have called has returned. The clock advances
only when no loop is running. -/
def step : Action → Option State
  | .op op => if s.running then s.doOp op else none
  | .advanceTo n toDispatch => if s.idle then s.advanceTo n toDispatch else none
  | .next top => s.next top

def run (actions : List Action) : Option State := actions.foldlM step {}

/-- The states of runs whose steps all meet a condition. -/
inductive Reached (P : State → Action → Prop) : State → Prop where
  | start : Reached P {}
  | step {s s' : State} {a : Action} : Reached P s → P s a → s.step a = some s' → Reached P s'

/-- The events of a timer are not added to, nor cleared, while the loop of `VirtualTimer::cancel`
runs over them: no callback that the loop has called waits on that timer again, or cancels it again.
-/
def Undisturbed (s : State) : Action → Prop
  | .op (.async_wait timer) => ∀ t, s.timers timer = some t → t.mCancelled = false →
    s.iterating timer = false
  | .next _ =>
    match s.frames with
    | .cancel timer [] _ :: frames => { s with frames }.iterating timer = false
    | _ => True
  | _ => True

/-- The states that come after another. -/
inductive Later (s : State) : State → Prop where
  | refl : Later s s
  | step {s' s'' : State} {a : Action} : Later s s' → s'.Undisturbed a → s'.step a = some s'' →
    Later s s''

/-! ## The law -/

def waits (e : EventId) : Prop := e < s.made ∧ ∀ c ∈ s.calls, c.event ≠ e

/-- Each callback that waits is called exactly once. -/
structure Once : Prop where
  /-- No callback is called twice. -/
  once : (s.calls.map Call.event).Nodup
  /-- None is lost. -/
  queued : ∀ e, s.waits e → e ∈ s.mEvents ∨ e ∈ s.toDispatch.getD []
  /-- With success, at a time not before its expiry; a cancelled wait never fires with success. -/
  success : ∀ c ∈ s.calls, c.aborted = false →
    (s.events c.event).mWhen ≤ c.time ∧ s.cancelled c.event = false
  /-- With `operation_aborted`, when it is cancelled first. -/
  aborted : ∀ c ∈ s.calls, c.aborted = true → s.cancelled c.event = true
  /-- A wait that is cancelled is called when the loop is over. -/
  cancelled : s.frames = [] → ∀ e, s.cancelled e = true → ∃ c ∈ s.calls, c.event = e ∧ c.aborted = true
  /-- When the clock has advanced, all that were due have been called. -/
  due : s.idle → ∀ n toDispatch s₁ s₂, s.advanceTo n toDispatch = some s₁ → Later s₁ s₂ → s₂.idle →
    ∀ e, s.waits e → (s.events e).mWhen ≤ n → ∃ c ∈ s₂.calls, c.event = e

/-- By expiry, and then in the order in which they were enqueued. -/
def Before (a b : EventId) : Prop :=
  (s.events a).mWhen < (s.events b).mWhen ∨ (s.events a).mWhen = (s.events b).mWhen ∧ a < b

instance (a b : EventId) : Decidable (s.Before a b) := by
  unfold Before
  infer_instance

def successes : List EventId := (s.calls.filter fun c => !c.aborted).map Call.event

def InOrder : Prop := s.successes.Pairwise s.Before

instance : Decidable s.InOrder := by
  unfold InOrder
  infer_instance

/-- The clock does not go back, no wait is enqueued when its expiry is past, and whenever the clock
advances, of two waits on different timers that are due at the same time the one that was enqueued
first has the smaller sequence number. -/
def Orderly (s : State) : Action → Prop
  | .op (.async_wait timer) => ∀ t, s.timers timer = some t → t.mCancelled = false →
    s.mNow ≤ t.mExpiryTime
  | .advanceTo n _ => s.mNow ≤ n ∧ ∀ e e', s.waits e → s.waits e' → e < e' →
    s.owner e ≠ s.owner e' → (s.events e).mWhen = (s.events e').mWhen → (s.events e).mWhen ≤ n →
    (s.events e).mSeq < (s.events e').mSeq
  | _ => True

/-! ## The invariant -/

/-- The events of the running `advanceTo` that are still to be dispatched. -/
def pending : List EventId := s.toDispatch.getD []

/-- What holds in all states. In the middle of a step, the event `x` has been taken from a loop and
is not called yet. -/
structure Inv (x : Option EventId) : Prop where
  called : ∀ e, (s.events e).mTriggered = true ↔ ∃ c ∈ s.calls, c.event = e
  once : (s.calls.map Call.event).Nodup
  success : ∀ c ∈ s.calls, c.aborted = false →
    (s.events c.event).mWhen ≤ c.time ∧ s.cancelled c.event = false
  aborted : ∀ c ∈ s.calls, c.aborted = true → s.cancelled c.event = true
  made : ∀ e, (s.events e).mTriggered = true ∨ s.cancelled e = true ∨ e ∈ s.mEvents → e < s.made
  nodup : s.mEvents.Nodup
  queued : ∀ e < s.made, (s.events e).mTriggered = false → x ≠ some e → e ∈ s.mEvents ∨ e ∈ s.pending
  due : ∀ e ∈ s.pending, e < s.made ∧ (s.events e).mWhen ≤ s.mNow
  cancelled : ∀ e, s.cancelled e = true → (s.events e).mTriggered = false → x ≠ some e →
    ∃ timer rest expiry, .cancel timer rest expiry ∈ s.frames ∧ e ∈ rest
  marked : ∀ timer rest expiry, .cancel timer rest expiry ∈ s.frames → ∀ e ∈ rest,
    (s.events e).mTriggered = false → s.cancelled e = true
  looping : ∀ timer rest expiry, .cancel timer rest expiry ∈ s.frames →
    ∀ t, s.timers timer = some t → ∀ e ∈ t.mEvents, (s.events e).mTriggered = false → x ≠ some e →
    e ∈ rest
  owned : ∀ e < s.made, (s.events e).mTriggered = false →
    ∃ t, s.timers (s.owner e) = some t ∧ e ∈ t.mEvents
  listed : ∀ timer t, s.timers timer = some t → ∀ e ∈ t.mEvents, e < s.made ∧ s.owner e = timer
  sorted : ∀ timer t, s.timers timer = some t →
    t.mEvents.Pairwise fun a b => a < b ∧ (s.events a).mSeq < (s.events b).mSeq

theorem inv_start : Inv {} none where
  called e := by simp
  once := List.nodup_nil
  success := nofun
  aborted := nofun
  made e h := by simp at h
  nodup := List.nodup_nil
  queued := nofun
  due := nofun
  cancelled := nofun
  marked := nofun
  looping := nofun
  owned := nofun
  listed := nofun
  sorted := nofun

variable {s} {x : Option EventId} {e : EventId} {aborted : Bool}

/-! ### Calls -/

/-- A call changes no expiry and no sequence number. -/
theorem triggered_when (events : EventId → VirtualClockEvent) (e e' : EventId) :
    (Function.update events e { events e with mTriggered := true } e').mWhen = (events e').mWhen := by
  by_cases h : e' = e
  · subst h
    rw [Function.update_self]
  · rw [Function.update_of_ne h]

theorem triggered_seq (events : EventId → VirtualClockEvent) (e e' : EventId) :
    (Function.update events e { events e with mTriggered := true } e').mSeq = (events e').mSeq := by
  by_cases h : e' = e
  · subst h
    rw [Function.update_self]
  · rw [Function.update_of_ne h]

theorem triggered_iff (events : EventId → VirtualClockEvent) (e e' : EventId) :
    (Function.update events e { events e with mTriggered := true } e').mTriggered = true ↔
      e' = e ∨ (events e').mTriggered = true := by
  by_cases h : e' = e
  · subst h
    simp
  · simp [h]

theorem untriggered_iff (events : EventId → VirtualClockEvent) (e e' : EventId) :
    (Function.update events e { events e with mTriggered := true } e').mTriggered = false ↔
      e' ≠ e ∧ (events e').mTriggered = false := by
  rw [← Bool.not_eq_true, triggered_iff]
  simp

/-- An event that was called before needs no exception. -/
theorem Inv.of_triggered (h : s.Inv (some e)) (he : (s.events e).mTriggered = true) : s.Inv none :=
  have hne {e' : EventId} (he' : (s.events e').mTriggered = false) : some e ≠ some e' := by
    rintro heq
    obtain rfl := Option.some.inj heq
    exact absurd he (ne_true_of_eq_false he')
  { h with
    queued := fun e' hlt he' _ => h.queued e' hlt he' (hne he')
    cancelled := fun e' hc he' _ => h.cancelled e' hc he' (hne he')
    looping := fun timer rest expiry hf t ht e' hmem he' _ =>
      h.looping timer rest expiry hf t ht e' hmem he' (hne he') }

/-- The event is called: with success when it is due and was not cancelled, or else aborted. -/
theorem Inv.call (h : s.Inv (some e)) (hmade : e < s.made)
    (hsuccess : aborted = false → (s.events e).mTriggered = false →
      (s.events e).mWhen ≤ s.mNow ∧ s.cancelled e = false)
    (haborted : aborted = true → (s.events e).mTriggered = false → s.cancelled e = true) :
    (s.call aborted e).Inv none := by
  unfold State.call
  by_cases he : (s.events e).mTriggered = true
  · rw [if_pos he]
    exact h.of_triggered he
  rw [if_neg he]
  rw [Bool.not_eq_true] at he
  have hnotCalled : ∀ c ∈ s.calls, c.event ≠ e := fun c hc heq =>
    absurd ((h.called e).mpr ⟨c, hc, heq⟩) (ne_true_of_eq_false he)
  have hne {e' : EventId} (hne' : e' ≠ e) : some e ≠ some e' := fun heq => hne' (Option.some.inj heq).symm
  refine ⟨fun e' => ?_, ?_, fun c hc ha => ?_, fun c hc ha => ?_, fun e' he' => ?_, h.nodup,
    fun e' hlt he' _ => ?_, fun e' hmem => ?_, fun e' hc he' _ => ?_, fun timer rest expiry hf e' hmem he' => ?_,
    fun timer rest expiry hf t ht e' hmem he' _ => ?_, fun e' hlt he' => ?_, h.listed,
    fun timer t ht => ?_⟩
  · simp only [triggered_iff, List.mem_append, List.mem_singleton, or_and_right, exists_or,
      exists_eq_left, h.called e']
    exact or_comm.trans (or_congr_right eq_comm)
  · rw [List.map_append, List.nodup_append]
    refine ⟨h.once, List.pairwise_singleton _ _, fun a ha b hb => ?_⟩
    obtain ⟨c, hc, rfl⟩ := List.mem_map.mp ha
    rw [List.mem_singleton.mp hb]
    exact hnotCalled c hc
  · simp only [triggered_when]
    obtain hc | hc := List.mem_append.mp hc
    · exact h.success c hc ha
    · obtain rfl := List.mem_singleton.mp hc
      exact hsuccess ha he
  · obtain hc | hc := List.mem_append.mp hc
    · exact h.aborted c hc ha
    · obtain rfl := List.mem_singleton.mp hc
      exact haborted ha he
  · simp only [triggered_iff] at he'
    obtain (rfl | he') | he' := he'
    · exact hmade
    · exact h.made e' (.inl he')
    · exact h.made e' (.inr he')
  · simp only [untriggered_iff] at he'
    exact h.queued e' hlt he'.2 (hne he'.1)
  · simp only [triggered_when]
    exact h.due e' hmem
  · simp only [untriggered_iff] at he'
    obtain ⟨timer, rest, expiry, hf, hmem⟩ := h.cancelled e' hc he'.2 (hne he'.1)
    exact ⟨timer, rest, expiry, List.mem_cons_of_mem _ hf, hmem⟩
  · simp only [untriggered_iff] at he'
    obtain hf | hf := List.mem_cons.mp hf
    · cases hf
    · exact h.marked timer rest expiry hf e' hmem he'.2
  · simp only [untriggered_iff] at he'
    obtain hf | hf := List.mem_cons.mp hf
    · cases hf
    · exact h.looping timer rest expiry hf t ht e' hmem he'.2 (hne he'.1)
  · simp only [untriggered_iff] at he'
    exact h.owned e' hlt he'.2
  · simp only [triggered_seq]
    exact h.sorted timer t ht

/-! ### Loops -/

/-- Only the loops of `VirtualTimer::cancel` matter. -/
theorem Inv.setFrames (h : s.Inv x) {frames : List Frame}
    (hframes : ∀ timer rest expiry,
      .cancel timer rest expiry ∈ frames ↔ .cancel timer rest expiry ∈ s.frames) :
    Inv { s with frames } x :=
  { h with
    cancelled := fun e hc he hx => by
      obtain ⟨timer, rest, expiry, hf, hmem⟩ := h.cancelled e hc he hx
      exact ⟨timer, rest, expiry, (hframes _ _ _).mpr hf, hmem⟩
    marked := fun timer rest expiry hf => h.marked timer rest expiry ((hframes _ _ _).mp hf)
    looping := fun timer rest expiry hf => h.looping timer rest expiry ((hframes _ _ _).mp hf) }

/-- The loop of `VirtualTimer::cancel` takes the next event. -/
theorem Inv.nextCancel (h : s.Inv none) {timer : TimerId} {rest : List EventId} {expiry : Option Expiry}
    {frames : List Frame} (hframes : s.frames = .cancel timer (e :: rest) expiry :: frames) :
    Inv { s with frames := .cancel timer rest expiry :: frames } (some e) := by
  have hother {e' : EventId} (hx : some e ≠ some e') (hmem : e' ∈ e :: rest) : e' ∈ rest :=
    (List.mem_cons.mp hmem).resolve_left fun heq => hx (heq ▸ rfl)
  have htop : Frame.cancel timer (e :: rest) expiry ∈ s.frames := by
    rw [hframes]
    exact List.mem_cons_self
  have hrest {f : Frame} (hf : f ∈ frames) : f ∈ s.frames := by
    rw [hframes]
    exact List.mem_cons_of_mem _ hf
  exact { h with
    queued := fun e' hlt he' _ => h.queued e' hlt he' nofun
    cancelled := fun e' hc he' hx => by
      obtain ⟨timer', rest', expiry', hf, hmem⟩ := h.cancelled e' hc he' nofun
      rw [hframes] at hf
      obtain hf | hf := List.mem_cons.mp hf
      · cases hf
        exact ⟨timer, rest, expiry, List.mem_cons_self, hother hx hmem⟩
      · exact ⟨timer', rest', expiry', List.mem_cons_of_mem _ hf, hmem⟩
    marked := fun timer' rest' expiry' hf e' hmem => by
      obtain hf | hf := List.mem_cons.mp hf
      · cases hf
        exact h.marked timer (e :: rest) expiry htop e' (List.mem_cons_of_mem _ hmem)
      · exact h.marked timer' rest' expiry' (hrest hf) e' hmem
    looping := fun timer' rest' expiry' hf t ht e' hmem he' hx => by
      obtain hf | hf := List.mem_cons.mp hf
      · cases hf
        exact hother hx (h.looping timer (e :: rest) expiry htop t ht e' hmem he' nofun)
      · exact h.looping timer' rest' expiry' (hrest hf) t ht e' hmem he' nofun }

/-- The loop of `advanceTo` takes the next event. -/
theorem Inv.nextDispatch (h : s.Inv none) {rest : List EventId} (hd : s.toDispatch = some (e :: rest)) :
    Inv { s with toDispatch := some rest } (some e) := by
  have hpending : s.pending = e :: rest := by rw [pending, hd]; rfl
  exact { h with
    queued := fun e' hlt he' hx => by
      refine (h.queued e' hlt he' nofun).imp_right fun hmem => ?_
      rw [hpending] at hmem
      exact (List.mem_cons.mp hmem).resolve_left fun heq => hx (heq ▸ rfl)
    due := fun e' hmem => h.due e' (hpending ▸ List.mem_cons_of_mem _ hmem)
    cancelled := fun e' hc he' _ => h.cancelled e' hc he' nofun
    looping := fun timer rest expiry hf t ht e' hmem he' _ =>
      h.looping timer rest expiry hf t ht e' hmem he' nofun }

/-- The loop of `cancelAllEvents` takes an event from the queue. -/
theorem Inv.nextCancelAll (h : s.Inv none) (htop : e ∈ s.mEvents) :
    Inv { s with
      mEvents := s.mEvents.erase e
      cancelled := fun e' => s.cancelled e' || (decide (e' = e) && !(s.events e').mTriggered) }
      (some e) := by
  have hsame {e' : EventId} (hx : some e ≠ some e') :
      (s.cancelled e' || (decide (e' = e) && !(s.events e').mTriggered)) = s.cancelled e' := by
    have hne : e' ≠ e := fun heq => hx (congrArg some heq.symm)
    simp [hne]
  refine { h with
    success := fun c hc ha => ⟨(h.success c hc ha).1, ?_⟩
    aborted := fun c hc ha => by simp [h.aborted c hc ha]
    made := fun e' he' => ?_
    nodup := h.nodup.erase e
    queued := fun e' hlt he' hx => ?_
    cancelled := fun e' hc he' hx => h.cancelled e' (hsame hx ▸ hc) he' nofun
    marked := fun timer rest expiry hf e' hmem he' => by
      simp [h.marked timer rest expiry hf e' hmem he']
    looping := fun timer rest expiry hf t ht e' hmem he' _ =>
      h.looping timer rest expiry hf t ht e' hmem he' nofun }
  · have hcalled := (h.called c.event).mpr ⟨c, hc, rfl⟩
    simp [(h.success c hc ha).2, hcalled]
  · obtain he' | he' | he' := he'
    · exact h.made e' (.inl he')
    · by_cases heq : e' = e
      · subst heq
        exact h.made e' (.inr (.inr htop))
      · simp only [heq, decide_false, Bool.false_and, Bool.or_false] at he'
        exact h.made e' (.inr (.inl he'))
    · exact h.made e' (.inr (.inr (List.mem_of_mem_erase he')))
  · refine (h.queued e' hlt he' nofun).imp_left fun hmem => ?_
    have hne : e' ≠ e := fun heq => hx (congrArg some heq.symm)
    exact (List.mem_erase_of_ne hne).mpr hmem

/-! ### Timers -/

/-- Cancelled events that are flushed have been called. -/
theorem Inv.flush (h : s.Inv x) : s.flushCancelledEvents.Inv x := by
  unfold flushCancelledEvents
  split
  · exact { h with }
  · exact { h with
      made := fun e he => h.made e (he.imp_right (.imp_right List.mem_of_mem_filter))
      nodup := h.nodup.filter _
      queued := fun e hlt he hx =>
        (h.queued e hlt he hx).imp_left fun hmem =>
          List.mem_filter.mpr ⟨hmem, Bool.not_eq_true' _ ▸ he⟩ }

/-- A timer is changed, but not its events. -/
theorem Inv.setTimer (h : s.Inv x) {timer : TimerId} {t : VirtualTimer}
    (ht : s.timers timer = some t) (t' : VirtualTimer) (ht' : t'.mEvents = t.mEvents) :
    Inv { s with timers := Function.update s.timers timer (some t') } x := by
  have hold {i : TimerId} {u : VirtualTimer} (hu : Function.update s.timers timer (some t') i = some u) :
      ∃ u', s.timers i = some u' ∧ u.mEvents = u'.mEvents := by
    by_cases hi : i = timer
    · subst hi
      rw [Function.update_self] at hu
      exact ⟨t, ht, Option.some.inj hu ▸ ht'⟩
    · rw [Function.update_of_ne hi] at hu
      exact ⟨u, hu, rfl⟩
  refine { h with
    looping := fun i rest expiry hf u hu => ?_
    owned := fun e hlt he => ?_
    listed := fun i u hu => ?_
    sorted := fun i u hu => ?_ }
  · obtain ⟨u', hu', heq⟩ := hold hu
    rw [heq]
    exact h.looping i rest expiry hf u' hu'
  · obtain ⟨u, hu, hmem⟩ := h.owned e hlt he
    by_cases hi : s.owner e = timer
    · rw [hi, ht] at hu
      obtain rfl := Option.some.inj hu
      exact ⟨t', by simp only [hi, Function.update_self], ht' ▸ hmem⟩
    · exact ⟨u, by simp only [Function.update_of_ne hi, hu], hmem⟩
  · obtain ⟨u', hu', heq⟩ := hold hu
    rw [heq]
    exact h.listed i u' hu'
  · obtain ⟨u', hu', heq⟩ := hold hu
    rw [heq]
    exact h.sorted i u' hu'

theorem Inv.expire (h : s.Inv x) (timer : TimerId) (expiry : Option Expiry) :
    (s.expire timer expiry).Inv x := by
  unfold State.expire
  split
  · rename_i t ht
    exact h.setTimer ht _ rfl
  · exact h

/-- The events of a timer are to be cancelled. -/
theorem Inv.cancel (h : s.Inv none) {timer : TimerId} {t : VirtualTimer} (ht : s.timers timer = some t)
    (expiry : Option Expiry) : (s.cancel timer t expiry).Inv none := by
  unfold State.cancel
  split
  · exact h.expire timer expiry
  have h' := h.setTimer ht { t with mCancelled := true } rfl
  refine { h' with
    success := fun c hc ha => ⟨(h.success c hc ha).1, ?_⟩
    aborted := fun c hc ha => by simp [h.aborted c hc ha]
    made := fun e he => ?_
    cancelled := fun e hc he _ => ?_
    marked := fun i rest expiry' hf e hmem he => ?_
    looping := fun i rest expiry' hf u hu e hmem he hx => ?_ }
  · have hcalled := (h.called c.event).mpr ⟨c, hc, rfl⟩
    simp [(h.success c hc ha).2, hcalled]
  · simp only [Bool.or_eq_true, Bool.and_eq_true, decide_eq_true_eq] at he
    obtain he | (he | he) | he := he
    · exact h.made e (.inl he)
    · exact h.made e (.inr (.inl he))
    · exact he.1.1
    · exact h.made e (.inr (.inr he))
  · simp only [Bool.or_eq_true, Bool.and_eq_true, decide_eq_true_eq] at hc
    obtain hc | ⟨⟨hlt, howner⟩, -⟩ := hc
    · obtain ⟨i, rest, expiry', hf, hmem⟩ := h.cancelled e hc he nofun
      exact ⟨i, rest, expiry', List.mem_cons_of_mem _ hf, hmem⟩
    · obtain ⟨u, hu, hmem⟩ := h.owned e hlt he
      rw [howner, ht] at hu
      obtain rfl := Option.some.inj hu
      exact ⟨timer, t.mEvents, expiry, List.mem_cons_self, hmem⟩
  · obtain hf | hf := List.mem_cons.mp hf
    · cases hf
      have hlisted := h.listed timer t ht e hmem
      simp [hlisted, show (s.events e).mTriggered = false from he]
    · simp [h.marked i rest expiry' hf e hmem he]
  · obtain hf | hf := List.mem_cons.mp hf
    · cases hf
      simp only [Function.update_self, Option.some.injEq] at hu
      subst hu
      exact hmem
    · exact h'.looping i rest expiry' hf u hu e hmem he hx

/-- A timer without events takes the place of one whose events have all been called. -/
theorem Inv.clear (h : s.Inv x) {timer : TimerId} {v : Option VirtualTimer}
    (hv : ∀ t, v = some t → t.mEvents = [])
    (hcalled : ∀ t, s.timers timer = some t → ∀ e ∈ t.mEvents, (s.events e).mTriggered = true) :
    Inv { s with timers := Function.update s.timers timer v } x := by
  have hold {i : TimerId} {u : VirtualTimer} (hu : Function.update s.timers timer v i = some u) :
      s.timers i = some u ∨ u.mEvents = [] := by
    by_cases hi : i = timer
    · subst hi
      rw [Function.update_self] at hu
      exact .inr (hv u hu)
    · rw [Function.update_of_ne hi] at hu
      exact .inl hu
  refine { h with
    looping := fun i rest expiry hf u hu e hmem => ?_
    owned := fun e hlt he => ?_
    listed := fun i u hu e hmem => ?_
    sorted := fun i u hu => ?_ }
  · obtain hu | hnil := hold hu
    · exact h.looping i rest expiry hf u hu e hmem
    · simp [hnil] at hmem
  · obtain ⟨u, hu, hmem⟩ := h.owned e hlt he
    have hi : s.owner e ≠ timer := fun heq =>
      absurd (hcalled u (heq ▸ hu) e hmem) (ne_true_of_eq_false he)
    exact ⟨u, by simp only [Function.update_of_ne hi, hu], hmem⟩
  · obtain hu | hnil := hold hu
    · exact h.listed i u hu e hmem
    · simp [hnil] at hmem
  · obtain hu | hnil := hold hu
    · exact h.sorted i u hu
    · rw [hnil]
      exact List.Pairwise.nil

/-- The loop of `VirtualTimer::cancel` is over, so all events of the timer have been called. -/
theorem Inv.finishCancel (h : s.Inv none) {timer : TimerId} {expiry : Option Expiry}
    {frames : List Frame} (hframes : s.frames = .cancel timer [] expiry :: frames) :
    ({ s with frames }.finishCancel timer expiry).Inv none := by
  have htop : Frame.cancel timer [] expiry ∈ s.frames := hframes ▸ List.mem_cons_self
  have hpop : Inv { s with frames } none := { h with
    cancelled := fun e hc he hx => by
      obtain ⟨timer', rest', expiry', hf, hmem⟩ := h.cancelled e hc he hx
      rw [hframes] at hf
      obtain hf | hf := List.mem_cons.mp hf
      · cases hf
        exact absurd hmem List.not_mem_nil
      · exact ⟨timer', rest', expiry', hf, hmem⟩
    marked := fun timer' rest' expiry' hf =>
      h.marked timer' rest' expiry' (hframes ▸ List.mem_cons_of_mem _ hf)
    looping := fun timer' rest' expiry' hf =>
      h.looping timer' rest' expiry' (hframes ▸ List.mem_cons_of_mem _ hf) }
  have hcalled (t : VirtualTimer) (ht : s.timers timer = some t) (e : EventId) (hmem : e ∈ t.mEvents) :
      (s.events e).mTriggered = true := by
    rw [← Bool.not_eq_false]
    exact fun he => absurd (h.looping timer [] expiry htop t ht e hmem he nofun) List.not_mem_nil
  have hflush := hpop.flush
  have hevents : { s with frames }.flushCancelledEvents.events = s.events := by
    unfold flushCancelledEvents
    split <;> rfl
  have htimers : { s with frames }.flushCancelledEvents.timers = s.timers := by
    unfold flushCancelledEvents
    split <;> rfl
  unfold State.finishCancel
  generalize { s with frames }.flushCancelledEvents = s₁ at hflush hevents htimers
  refine Inv.expire (hflush.clear (fun t ht => ?_) fun t ht e hmem => ?_) timer expiry
  · obtain ⟨_, _, rfl⟩ := Option.map_eq_some_iff.mp ht
    rfl
  · rw [hevents]
    exact hcalled t (htimers ▸ ht) e hmem

theorem Inv.construct (h : s.Inv none) {timer : TimerId} (ht : s.timers timer = none) :
    Inv { s with timers := Function.update s.timers timer (some { mExpiryTime := s.mNow }) } none :=
  h.clear (fun _ hv => Option.some.inj hv ▸ rfl) fun _ ht' => absurd (ht.symm.trans ht') nofun

/-- A new event comes after those of its timer. -/
theorem Inv.seq_lt (h : s.Inv x) {timer : TimerId} {t : VirtualTimer} (ht : s.timers timer = some t) :
    ∀ e ∈ t.mEvents, (s.events e).mSeq < s.seq t := by
  intro e hmem
  have hsorted := h.sorted timer t ht
  unfold seq
  cases hlast : t.mEvents.getLast? with
  | none =>
    rw [List.getLast?_eq_none_iff.mp hlast] at hmem
    exact absurd hmem List.not_mem_nil
  | some back =>
    obtain ⟨front, hfront⟩ := List.getLast?_eq_some_iff.mp hlast
    rw [hfront] at hmem hsorted
    obtain hmem | hmem := List.mem_append.mp hmem
    · exact Nat.lt_succ_of_lt
        ((List.pairwise_append.mp hsorted).2.2 e hmem back (List.mem_singleton_self _)).2
    · rw [List.mem_singleton.mp hmem]
      exact Nat.lt_succ_self _

/-! ### Waits -/

section Enqueue

variable {timer : TimerId} {t : VirtualTimer}

theorem enqueue_events (s : State) (timer : TimerId) (t : VirtualTimer) {e : EventId}
    (hlt : e < s.made) : (s.enqueue timer t).events e = s.events e :=
  Function.update_of_ne (Nat.ne_of_lt hlt) _ _

theorem enqueue_events_made (s : State) (timer : TimerId) (t : VirtualTimer) :
    (s.enqueue timer t).events s.made = { mWhen := t.mExpiryTime, mSeq := s.seq t } :=
  Function.update_self ..

theorem enqueue_owner (s : State) (timer : TimerId) (t : VirtualTimer) {e : EventId}
    (hlt : e < s.made) : (s.enqueue timer t).owner e = s.owner e :=
  Function.update_of_ne (Nat.ne_of_lt hlt) _ _

theorem enqueue_timers_self (s : State) (timer : TimerId) (t : VirtualTimer) :
    (s.enqueue timer t).timers timer = some { t with mEvents := t.mEvents ++ [s.made] } :=
  Function.update_self ..

theorem enqueue_timers (s : State) {timer i : TimerId} (t : VirtualTimer) (hi : i ≠ timer) :
    (s.enqueue timer t).timers i = s.timers i :=
  Function.update_of_ne hi _ _

/-- The new event has not been called. -/
theorem enqueue_triggered_iff (h : s.Inv x) (e : EventId) :
    ((s.enqueue timer t).events e).mTriggered = true ↔ (s.events e).mTriggered = true := by
  by_cases he : e = s.made
  · subst he
    rw [enqueue_events_made]
    exact ⟨nofun, fun he => absurd (h.made _ (.inl he)) (Nat.lt_irrefl _)⟩
  · show (Function.update s.events s.made _ e).mTriggered = true ↔ _
    rw [Function.update_of_ne he]

theorem enqueue_untriggered (h : s.Inv x) {e : EventId}
    (he : ((s.enqueue timer t).events e).mTriggered = false) : (s.events e).mTriggered = false := by
  rwa [← Bool.not_eq_true, ← enqueue_triggered_iff h, Bool.not_eq_true]

theorem Inv.enqueue_made (h : s.Inv x) (e : EventId)
    (he : ((s.enqueue timer t).events e).mTriggered = true ∨ s.cancelled e = true ∨
      e ∈ s.mEvents ++ [s.made]) : e < s.made + 1 := by
  rw [enqueue_triggered_iff h, List.mem_append, List.mem_singleton] at he
  obtain he | he | he | rfl := he
  · exact Nat.lt_succ_of_lt (h.made e (.inl he))
  · exact Nat.lt_succ_of_lt (h.made e (.inr (.inl he)))
  · exact Nat.lt_succ_of_lt (h.made e (.inr (.inr he)))
  · exact Nat.lt_succ_self _

theorem Inv.enqueue_nodup (h : s.Inv x) : (s.mEvents ++ [s.made]).Nodup := by
  refine List.nodup_append.mpr ⟨h.nodup, List.pairwise_singleton _ _, fun a ha b hb => ?_⟩
  rw [List.mem_singleton.mp hb]
  exact Nat.ne_of_lt (h.made a (.inr (.inr ha)))

/-- The loops are over events of other timers. -/
theorem Inv.enqueue_looping (h : s.Inv none) (hiterating : s.iterating timer = false) (i : TimerId)
    (rest : List EventId) (expiry : Option Expiry) (hf : .cancel i rest expiry ∈ s.frames)
    (u : VirtualTimer) (hu : (s.enqueue timer t).timers i = some u) (e : EventId)
    (hmem : e ∈ u.mEvents) (he : ((s.enqueue timer t).events e).mTriggered = false) : e ∈ rest := by
  have hi : i ≠ timer := by
    rintro rfl
    exact absurd (List.any_eq_true.mpr ⟨_, hf, by simp⟩) (ne_true_of_eq_false hiterating)
  rw [enqueue_timers s t hi] at hu
  exact h.looping i rest expiry hf u hu e hmem (enqueue_untriggered h he) nofun

theorem Inv.enqueue_owned (h : s.Inv x) (ht : s.timers timer = some t) (e : EventId)
    (hlt : e < s.made + 1) (he : ((s.enqueue timer t).events e).mTriggered = false) :
    ∃ u, (s.enqueue timer t).timers ((s.enqueue timer t).owner e) = some u ∧ e ∈ u.mEvents := by
  obtain hlt | rfl := Nat.lt_succ_iff_lt_or_eq.mp hlt
  · obtain ⟨u, hu, hmem⟩ := h.owned e hlt (enqueue_untriggered h he)
    rw [enqueue_owner s timer t hlt]
    by_cases hi : s.owner e = timer
    · rw [hi, ht] at hu
      obtain rfl := Option.some.inj hu
      rw [hi, enqueue_timers_self]
      exact ⟨_, rfl, List.mem_append_left _ hmem⟩
    · rw [enqueue_timers s t hi]
      exact ⟨u, hu, hmem⟩
  · have howner : (s.enqueue timer t).owner s.made = timer := Function.update_self ..
    rw [howner, enqueue_timers_self]
    exact ⟨_, rfl, List.mem_append_right _ (List.mem_singleton_self _)⟩

theorem Inv.enqueue_listed (h : s.Inv x) (ht : s.timers timer = some t) (i : TimerId)
    (u : VirtualTimer) (hu : (s.enqueue timer t).timers i = some u) (e : EventId)
    (hmem : e ∈ u.mEvents) : e < s.made + 1 ∧ (s.enqueue timer t).owner e = i := by
  have hold {u : VirtualTimer} (hu : s.timers i = some u) (hmem : e ∈ u.mEvents) :
      e < s.made + 1 ∧ (s.enqueue timer t).owner e = i := by
    obtain ⟨hlt, howner⟩ := h.listed i u hu e hmem
    rw [enqueue_owner s timer t hlt]
    exact ⟨Nat.lt_succ_of_lt hlt, howner⟩
  by_cases hi : i = timer
  · subst hi
    rw [enqueue_timers_self] at hu
    obtain rfl := Option.some.inj hu
    obtain hmem | hmem := List.mem_append.mp hmem
    · exact hold ht hmem
    · obtain rfl := List.mem_singleton.mp hmem
      exact ⟨Nat.lt_succ_self _, Function.update_self ..⟩
  · rw [enqueue_timers s t hi] at hu
    exact hold hu hmem

theorem Inv.enqueue_sorted (h : s.Inv x) (ht : s.timers timer = some t) (i : TimerId)
    (u : VirtualTimer) (hu : (s.enqueue timer t).timers i = some u) :
    u.mEvents.Pairwise fun a b => a < b ∧
      ((s.enqueue timer t).events a).mSeq < ((s.enqueue timer t).events b).mSeq := by
  have hkept {u : VirtualTimer} (hu : s.timers i = some u) : u.mEvents.Pairwise fun a b => a < b ∧
      ((s.enqueue timer t).events a).mSeq < ((s.enqueue timer t).events b).mSeq := by
    refine (h.sorted i u hu).imp_of_mem fun ha hb hab => ?_
    rwa [enqueue_events s timer t (h.listed i u hu _ ha).1,
      enqueue_events s timer t (h.listed i u hu _ hb).1]
  by_cases hi : i = timer
  · subst hi
    rw [enqueue_timers_self] at hu
    obtain rfl := Option.some.inj hu
    refine List.pairwise_append.mpr ⟨hkept ht, List.pairwise_singleton _ _, fun a ha b hb => ?_⟩
    obtain rfl := List.mem_singleton.mp hb
    have hlt := (h.listed i t ht a ha).1
    rw [enqueue_events_made, enqueue_events s i t hlt]
    exact ⟨hlt, h.seq_lt ht a ha⟩
  · rw [enqueue_timers s t hi] at hu
    exact hkept hu

theorem Inv.enqueue (h : s.Inv none) (ht : s.timers timer = some t)
    (hiterating : s.iterating timer = false) : (s.enqueue timer t).Inv none where
  called e := (enqueue_triggered_iff h e).trans (h.called e)
  once := h.once
  success c hc ha := by
    have hlt : c.event < s.made := h.made _ (.inl ((h.called _).mpr ⟨c, hc, rfl⟩))
    rw [enqueue_events s timer t hlt]
    exact h.success c hc ha
  aborted := h.aborted
  made := h.enqueue_made
  nodup := h.enqueue_nodup
  queued e hlt he _ := by
    show e ∈ s.mEvents ++ [s.made] ∨ e ∈ s.pending
    rw [List.mem_append, List.mem_singleton]
    obtain hlt | rfl := Nat.lt_succ_iff_lt_or_eq.mp hlt
    · exact (h.queued e hlt (enqueue_untriggered h he) nofun).imp_left .inl
    · exact .inl (.inr rfl)
  due e hmem := by
    obtain ⟨hlt, hdue⟩ := h.due e hmem
    rw [enqueue_events s timer t hlt]
    exact ⟨Nat.lt_succ_of_lt hlt, hdue⟩
  cancelled e hc he _ := h.cancelled e hc (enqueue_untriggered h he) nofun
  marked i rest expiry hf e hmem he :=
    h.marked i rest expiry hf e hmem (enqueue_untriggered h he)
  looping i rest expiry hf u hu e hmem he _ :=
    h.enqueue_looping hiterating i rest expiry hf u hu e hmem he
  owned := h.enqueue_owned ht
  listed := h.enqueue_listed ht
  sorted := h.enqueue_sorted ht

end Enqueue

/-! ### The clock -/

/-- What is popped, in which order, and what is left. -/
structure Popped (s s' : State) (toDispatch : List EventId) : Prop where
  state : s' = { s with mEvents := s'.mEvents }
  left : ∀ e ∈ s'.mEvents, e ∈ s.mEvents ∧ s.mNow < (s.events e).mWhen
  taken : ∀ e ∈ toDispatch, e ∈ s.mEvents ∧ (s.events e).mWhen ≤ s.mNow
  each : ∀ e ∈ s.mEvents, e ∈ toDispatch ∨ e ∈ s'.mEvents
  nodup : s.mEvents.Nodup → s'.mEvents.Nodup ∧ toDispatch.Nodup
  sorted : toDispatch.Pairwise fun a b => ¬ (s.events a).less (s.events b)

theorem popped_of_popDue {toDispatch : List EventId} {s s' : State}
    (h : popDue toDispatch s = some s') : Popped s s' toDispatch := by
  induction toDispatch generalizing s with
  | nil =>
    unfold popDue at h
    split at h
    · rename_i hleft
      obtain rfl := Option.some.inj h
      exact ⟨rfl, fun e he => ⟨he, hleft e he⟩, nofun, fun e he => .inr he,
        fun hnodup => ⟨hnodup, List.nodup_nil⟩, List.Pairwise.nil⟩
    · exact nomatch h
  | cons e toDispatch ih =>
    unfold popDue at h
    split at h
    · rename_i htop
      obtain ⟨⟨hmem, hmax⟩, hdue⟩ := htop
      have hpopped := ih h
      refine ⟨hpopped.state, fun e' he' => ?_, fun e' he' => ?_, fun e' he' => ?_, fun hnodup => ?_, ?_⟩
      · obtain ⟨hmem', hlate⟩ := hpopped.left e' he'
        exact ⟨List.mem_of_mem_erase hmem', hlate⟩
      · obtain rfl | he' := List.mem_cons.mp he'
        · exact ⟨hmem, hdue⟩
        · obtain ⟨hmem', hdue'⟩ := hpopped.taken e' he'
          exact ⟨List.mem_of_mem_erase hmem', hdue'⟩
      · by_cases heq : e' = e
        · exact .inl (heq ▸ List.mem_cons_self)
        · exact (hpopped.each e' ((List.mem_erase_of_ne heq).mpr he')).imp_left (List.mem_cons_of_mem e)
      · obtain ⟨hleft, htaken⟩ := hpopped.nodup (hnodup.erase e)
        exact ⟨hleft, List.nodup_cons.mpr
          ⟨fun he => hnodup.not_mem_erase (hpopped.taken e he).1, htaken⟩⟩
      · exact List.pairwise_cons.mpr
          ⟨fun e' he' => hmax e' (List.mem_of_mem_erase (hpopped.taken e' he').1), hpopped.sorted⟩
    · exact nomatch h

/-- `advanceTo` takes what is due from the queue. -/
theorem advanceTo_some {n : TimePoint} {toDispatch : List EventId} {s' : State}
    (h : s.advanceTo n toDispatch = some s') :
    ∃ left, Popped { s with mNow := n } { s with mNow := n, mEvents := left } toDispatch ∧
      s' = { s with mNow := n, mEvents := left, toDispatch := some toDispatch } := by
  unfold State.advanceTo at h
  obtain ⟨s₁, hpop, h⟩ := Option.bind_eq_some_iff.mp h
  have hpopped := popped_of_popDue hpop
  obtain rfl := Option.some.inj h
  have hstate := hpopped.state
  refine ⟨s₁.mEvents, by rwa [hstate] at hpopped, ?_⟩
  rw [hstate]

theorem Inv.advanceTo (h : s.Inv none) (hidle : s.idle) {n : TimePoint} {toDispatch : List EventId}
    {s' : State} (hs' : s.advanceTo n toDispatch = some s') : s'.Inv none := by
  obtain ⟨left, hpopped, rfl⟩ := advanceTo_some hs'
  have hpending : s.pending = [] := by rw [pending, hidle.2]; rfl
  refine { h with
    made := fun e he => h.made e (he.imp_right (.imp_right fun hmem => (hpopped.left e hmem).1))
    nodup := (hpopped.nodup h.nodup).1
    queued := fun e hlt he _ => ?_
    due := fun e hmem => ?_ }
  · obtain hmem | hmem := h.queued e hlt he nofun
    · exact (hpopped.each e hmem).symm
    · rw [hpending] at hmem
      exact absurd hmem List.not_mem_nil
  · obtain ⟨hmem, hdue⟩ := hpopped.taken e hmem
    exact ⟨h.made e (.inr (.inr hmem)), hdue⟩

/-! ### Steps -/

theorem Inv.doOp (h : s.Inv none) {op : Op} (hop : s.Undisturbed (.op op)) {s' : State}
    (hs' : s.doOp op = some s') : s'.Inv none := by
  cases op with
  | construct timer =>
    simp only [State.doOp, Option.ite_none_right_eq_some, Option.isNone_iff_eq_none] at hs'
    obtain ⟨ht, hs'⟩ := hs'
    exact Option.some.inj hs' ▸ h.construct ht
  | expires timer expiry =>
    obtain ⟨t, ht, rfl⟩ := Option.map_eq_some_iff.mp hs'
    exact h.cancel ht _
  | async_wait timer =>
    obtain ⟨t, ht, rfl⟩ := Option.map_eq_some_iff.mp hs'
    unfold State.async_wait
    split
    · exact h
    · rename_i hcancelled
      exact h.enqueue ht (hop t ht (Bool.eq_false_iff.mpr hcancelled))
  | cancel timer =>
    obtain ⟨t, ht, rfl⟩ := Option.map_eq_some_iff.mp hs'
    exact h.cancel ht _
  | cancelAllEvents =>
    obtain rfl := Option.some.inj hs'
    exact h.setFrames (by simp)

/-- What a loop takes next is called. -/
theorem Inv.next (h : s.Inv none) {top : EventId} {s' : State} (hs' : s.next top = some s') :
    s'.Inv none := by
  unfold State.next at hs'
  split at hs'
  · rename_i frames hframes
    obtain rfl := Option.some.inj hs'
    exact h.setFrames (by simp [hframes])
  · rename_i timer e rest expiry frames hframes
    obtain rfl := Option.some.inj hs'
    have hf : Frame.cancel timer (e :: rest) expiry ∈ s.frames := hframes ▸ List.mem_cons_self
    have hmarked := h.marked timer (e :: rest) expiry hf e List.mem_cons_self
    refine (h.nextCancel hframes).call ?_ nofun fun _ => hmarked
    cases he : (s.events e).mTriggered with
    | true => exact h.made e (.inl he)
    | false => exact h.made e (.inr (.inl (hmarked he)))
  · rename_i timer expiry frames hframes
    exact Option.some.inj hs' ▸ h.finishCancel hframes
  · rename_i frames hframes
    split at hs'
    · obtain rfl := Option.some.inj hs'
      exact h.setFrames (by simp [hframes])
    split at hs'
    · rename_i htop
      obtain rfl := Option.some.inj hs'
      refine (h.nextCancelAll htop.1).call (h.made top (.inr (.inr htop.1))) nofun fun _ he => ?_
      have he' : (s.events top).mTriggered = false := he
      simp [he']
    · exact nomatch hs'
  · rename_i hframes
    split at hs'
    · rename_i e rest hd
      obtain rfl := Option.some.inj hs'
      have hpending : e ∈ s.pending := by
        rw [pending, hd]
        exact List.mem_cons_self
      obtain ⟨hmade, hdue⟩ := h.due e hpending
      refine (h.nextDispatch hd).call hmade (fun _ he => ⟨hdue, ?_⟩) nofun
      rw [← Bool.not_eq_true]
      intro hc
      obtain ⟨timer, rest', expiry, hf, -⟩ := h.cancelled e hc he nofun
      rw [hframes] at hf
      exact List.not_mem_nil hf
    · rename_i hd
      obtain rfl := Option.some.inj hs'
      have hpending : s.pending = [] := by rw [pending, hd]; rfl
      exact { h with
        queued := fun e hlt he hx => .inl <| (h.queued e hlt he hx).resolve_right fun hmem =>
          List.not_mem_nil (hpending ▸ hmem)
        due := nofun }
    · exact nomatch hs'

theorem Inv.step (h : s.Inv none) {a : Action} (ha : s.Undisturbed a) {s' : State}
    (hs : s.step a = some s') : s'.Inv none := by
  cases a with
  | op op => exact h.doOp ha (Option.ite_none_right_eq_some.mp hs).2
  | advanceTo n toDispatch =>
    obtain ⟨hidle, hs⟩ := Option.ite_none_right_eq_some.mp hs
    exact h.advanceTo hidle hs
  | next top => exact h.next hs

theorem Reached.inv (h : Reached Undisturbed s) : s.Inv none := by
  induction h with
  | start => exact inv_start
  | step _ ha hs ih => exact ih.step ha hs

theorem Later.inv (h : s.Inv none) {s' : State} (hlater : Later s s') : s'.Inv none := by
  induction hlater with
  | refl => exact h
  | step _ ha hs ih => exact ih.step ha hs

/-! ## Quiet steps -/

/-- The callbacks that were called with success, and those that are to be dispatched. -/
def order : List EventId := s.successes ++ s.pending.filter fun e => !(s.events e).mTriggered

/-- Nothing is enqueued, and the clock does not advance. -/
structure Quiet (s s' : State) : Prop where
  now : s'.mNow = s.mNow
  made : s'.made = s.made
  queue : ∀ e ∈ s'.mEvents, e ∈ s.mEvents
  when : ∀ e, (s'.events e).mWhen = (s.events e).mWhen
  called : ∀ e, (s.events e).mTriggered = true → (s'.events e).mTriggered = true
  order : s'.order.Sublist s.order

theorem Quiet.trans {s₁ s₂ s₃ : State} (h₁ : Quiet s₁ s₂) (h₂ : Quiet s₂ s₃) : Quiet s₁ s₃ where
  now := h₂.now.trans h₁.now
  made := h₂.made.trans h₁.made
  queue e he := h₁.queue e (h₂.queue e he)
  when e := (h₂.when e).trans (h₁.when e)
  called e he := h₂.called e (h₁.called e he)
  order := h₂.order.trans h₁.order

variable (s) in
/-- The timers are none of its business. -/
theorem quiet_with (n : ℕ) (frames : List Frame) (timers : TimerId → Option VirtualTimer)
    (cancelled : EventId → Bool) :
    Quiet s { s with mFlushesIgnored := n, frames, timers, cancelled } :=
  ⟨rfl, rfl, fun _ he => he, fun _ => rfl, fun _ he => he, List.Sublist.refl _⟩

theorem flush_quiet (s : State) : Quiet s s.flushCancelledEvents := by
  unfold flushCancelledEvents
  split
  · exact quiet_with s _ _ _ _
  · exact ⟨rfl, rfl, fun _ he => List.mem_of_mem_filter he, fun _ => rfl, fun _ he => he,
      List.Sublist.refl _⟩

theorem expire_quiet (s : State) (timer : TimerId) (expiry : Option Expiry) :
    Quiet s (s.expire timer expiry) := by
  unfold State.expire
  split <;> exact quiet_with s _ _ _ _

theorem cancel_quiet (s : State) (timer : TimerId) (t : VirtualTimer) (expiry : Option Expiry) :
    Quiet s (s.cancel timer t expiry) := by
  unfold State.cancel
  split
  · exact expire_quiet s timer expiry
  · exact quiet_with s _ _ _ _

theorem finishCancel_quiet (s : State) (timer : TimerId) (expiry : Option Expiry) :
    Quiet s (s.finishCancel timer expiry) := by
  unfold State.finishCancel
  have hflush := flush_quiet s
  generalize s.flushCancelledEvents = s₁ at hflush
  exact (hflush.trans (quiet_with s₁ _ _ _ _)).trans (expire_quiet _ timer expiry)

theorem filter_triggered_sublist (events : EventId → VirtualClockEvent) (e : EventId)
    (l : List EventId) :
    (l.filter fun e' => !(Function.update events e { events e with mTriggered := true } e').mTriggered)
      |>.Sublist (l.filter fun e' => !(events e').mTriggered) := by
  refine List.monotone_filter_right l fun e' he' => ?_
  simp only [Bool.not_eq_true', untriggered_iff] at he' ⊢
  exact he'.2

/-- An aborted call. -/
theorem call_quiet (s : State) (e : EventId) : Quiet s (s.call true e) := by
  unfold State.call
  split
  · exact quiet_with s _ _ _ _
  refine ⟨rfl, rfl, fun _ he => he, triggered_when s.events e,
    fun e' he' => (triggered_iff s.events e e').mpr (.inr he'), ?_⟩
  unfold order successes
  simp only [List.filter_append, List.filter_cons, List.filter_nil, Bool.not_true,
    Bool.false_eq_true, ↓reduceIte, List.append_nil]
  exact (List.Sublist.refl _).append (filter_triggered_sublist s.events e _)

/-- The next event is dispatched. -/
theorem dispatch_quiet {e : EventId} {rest : List EventId} (hd : s.toDispatch = some (e :: rest)) :
    Quiet s ({ s with toDispatch := some rest }.call false e) := by
  have hpending : s.pending = e :: rest := by rw [pending, hd]; rfl
  unfold State.call
  by_cases he : (s.events e).mTriggered = true
  · rw [if_pos he]
    refine ⟨rfl, rfl, fun _ he => he, fun _ => rfl, fun _ he => he, ?_⟩
    unfold order
    rw [hpending]
    exact (List.Sublist.refl _).append ((List.sublist_cons_self e rest).filter _)
  · rw [if_neg he]
    refine ⟨rfl, rfl, fun _ he => he, triggered_when s.events e,
      fun e' he' => (triggered_iff s.events e e').mpr (.inr he'), ?_⟩
    unfold order successes
    rw [hpending, List.filter_cons_of_pos (by simpa using he)]
    simp only [List.filter_append, List.map_append, List.filter_cons, List.filter_nil, Bool.not_false,
      ↓reduceIte, List.map_cons, List.map_nil, List.append_assoc, List.singleton_append]
    exact (List.Sublist.refl _).append ((filter_triggered_sublist s.events e rest).cons_cons e)

/-- Loops are quiet. -/
theorem next_quiet {top : EventId} {s' : State} (hs' : s.next top = some s') : Quiet s s' := by
  unfold State.next at hs'
  split at hs'
  · obtain rfl := Option.some.inj hs'
    exact quiet_with s _ _ _ _
  · rename_i timer e rest expiry frames _
    obtain rfl := Option.some.inj hs'
    exact (quiet_with s _ _ _ _).trans (call_quiet _ e)
  · obtain rfl := Option.some.inj hs'
    exact (quiet_with s _ _ _ _).trans (finishCancel_quiet _ _ _)
  · split at hs'
    · obtain rfl := Option.some.inj hs'
      exact quiet_with s _ _ _ _
    split at hs'
    · obtain rfl := Option.some.inj hs'
      refine Quiet.trans ?_ (call_quiet _ top)
      exact ⟨rfl, rfl, fun _ he => List.mem_of_mem_erase he, fun _ => rfl, fun _ he => he,
        List.Sublist.refl _⟩
    · exact nomatch hs'
  · split at hs'
    · rename_i e rest hd
      obtain rfl := Option.some.inj hs'
      exact dispatch_quiet hd
    · rename_i hd
      obtain rfl := Option.some.inj hs'
      refine ⟨rfl, rfl, fun _ he => he, fun _ => rfl, fun _ he => he, ?_⟩
      unfold order pending
      rw [hd]
      exact List.Sublist.refl _
    · exact nomatch hs'

/-- What timers are used for is quiet, but for waits. -/
theorem doOp_quiet {op : Op} {s' : State} (hs' : s.doOp op = some s') :
    Quiet s s' ∨ ∃ timer t, op = .async_wait timer ∧ s.timers timer = some t ∧
      t.mCancelled = false ∧ s' = s.enqueue timer t := by
  cases op with
  | construct timer =>
    simp only [State.doOp, Option.ite_none_right_eq_some, Option.isNone_iff_eq_none] at hs'
    exact .inl (Option.some.inj hs'.2 ▸ quiet_with s _ _ _ _)
  | expires timer expiry =>
    obtain ⟨t, _, rfl⟩ := Option.map_eq_some_iff.mp hs'
    exact .inl (cancel_quiet s timer t _)
  | async_wait timer =>
    obtain ⟨t, ht, rfl⟩ := Option.map_eq_some_iff.mp hs'
    unfold State.async_wait
    split
    · exact .inl (quiet_with s _ _ _ _)
    · rename_i hcancelled
      exact .inr ⟨timer, t, rfl, ht, Bool.eq_false_iff.mpr hcancelled, rfl⟩
  | cancel timer =>
    obtain ⟨t, _, rfl⟩ := Option.map_eq_some_iff.mp hs'
    exact .inl (cancel_quiet s timer t _)
  | cancelAllEvents =>
    obtain rfl := Option.some.inj hs'
    exact .inl (quiet_with s _ _ _ _)

/-! ## Exactly once -/

theorem Inv.waits_iff (h : s.Inv x) : s.waits e ↔ e < s.made ∧ (s.events e).mTriggered = false := by
  rw [waits, ← Bool.not_eq_true, h.called]
  simp

/-- What is in the queue later was there before, or is new. -/
theorem Later.queue {s' : State} (h : Later s s') :
    s.made ≤ s'.made ∧ ∀ e ∈ s'.mEvents, e ∈ s.mEvents ∨ s.made ≤ e := by
  induction h with
  | refl => exact ⟨Nat.le_refl _, fun _ he => .inl he⟩
  | @step s₁ s₂ a _ _ hs ih =>
    have hquiet (hq : Quiet s₁ s₂) : s.made ≤ s₂.made ∧ ∀ e ∈ s₂.mEvents, e ∈ s.mEvents ∨ s.made ≤ e :=
      ⟨hq.made ▸ ih.1, fun e he => ih.2 e (hq.queue e he)⟩
    cases a with
    | op op =>
      obtain hq | ⟨timer, t, _, _, _, rfl⟩ := doOp_quiet (Option.ite_none_right_eq_some.mp hs).2
      · exact hquiet hq
      · refine ⟨Nat.le_succ_of_le ih.1, fun e he => ?_⟩
        obtain he | he := List.mem_append.mp he
        · exact ih.2 e he
        · exact .inr (List.mem_singleton.mp he ▸ ih.1)
    | advanceTo n toDispatch =>
      obtain ⟨left, hpopped, rfl⟩ := advanceTo_some (Option.ite_none_right_eq_some.mp hs).2
      exact ⟨ih.1, fun e he => ih.2 e (hpopped.left e he).1⟩
    | next top => exact hquiet (next_quiet hs)

/-- When the clock has advanced, what was due is no longer waiting. -/
theorem Inv.dispatched (h : s.Inv none) (hidle : s.idle) {n : TimePoint} {toDispatch : List EventId}
    {s₁ s₂ : State} (hs₁ : s.advanceTo n toDispatch = some s₁) (hlater : Later s₁ s₂)
    (hidle₂ : s₂.idle) (he : s.waits e) (hdue : (s.events e).mWhen ≤ n) :
    ∃ c ∈ s₂.calls, c.event = e := by
  have h₂ := Later.inv (h.advanceTo hidle hs₁) hlater
  obtain ⟨hmade, hqueue⟩ := hlater.queue
  obtain ⟨left, hpopped, rfl⟩ := advanceTo_some hs₁
  have hlt : e < s.made := he.1
  rw [← h₂.called, ← Bool.not_eq_false]
  intro hcalled
  obtain hmem | hmem := h₂.queued e (Nat.lt_of_lt_of_le hlt hmade) hcalled nofun
  · obtain hmem | hle := hqueue e hmem
    · exact absurd (hpopped.left e hmem).2 (Int.not_lt.mpr hdue)
    · exact absurd hlt (Nat.not_lt.mpr hle)
  · rw [pending, hidle₂.2] at hmem
    exact List.not_mem_nil hmem

/-- Each callback that waits is called exactly once. -/
theorem Reached.exactlyOnce (h : Reached Undisturbed s) : s.Once := by
  have hinv := h.inv
  refine ⟨hinv.once, fun e he => ?_, hinv.success, hinv.aborted, fun hframes e hc => ?_,
    fun hidle n toDispatch s₁ s₂ hs₁ hlater hidle₂ e he hdue =>
      hinv.dispatched hidle hs₁ hlater hidle₂ he hdue⟩
  · obtain ⟨hlt, hcalled⟩ := hinv.waits_iff.mp he
    exact hinv.queued e hlt hcalled nofun
  · cases he : (s.events e).mTriggered with
    | true =>
      obtain ⟨c, hmem, rfl⟩ := (hinv.called e).mp he
      refine ⟨c, hmem, rfl, ?_⟩
      rw [← Bool.not_eq_false]
      exact fun ha => absurd hc (ne_true_of_eq_false (hinv.success c hmem ha).2)
    | false =>
      obtain ⟨timer, rest, expiry, hf, -⟩ := hinv.cancelled e hc he nofun
      rw [hframes] at hf
      exact absurd hf List.not_mem_nil

/-! ## In order -/

/-- Callbacks are called in order, before those in the queue. -/
structure Sorted (s : State) : Prop where
  sorted : s.order.Pairwise s.Before
  queue : ∀ a ∈ s.order, ∀ e ∈ s.mEvents, (s.events e).mTriggered = false → s.Before a e
  past : ∀ a ∈ s.order, (s.events a).mWhen ≤ s.mNow
  future : ∀ e ∈ s.mEvents, s.mNow ≤ (s.events e).mWhen

theorem sorted_start : Sorted {} := ⟨List.Pairwise.nil, nofun, nofun, nofun⟩

theorem Sorted.quiet (h : s.Sorted) {s' : State} (hq : Quiet s s') : s'.Sorted := by
  have hbefore {a b : EventId} (hab : s.Before a b) : s'.Before a b := by
    unfold Before at hab ⊢
    rwa [hq.when, hq.when]
  refine ⟨(h.sorted.sublist hq.order).imp hbefore, fun a ha e he hcalled => ?_, fun a ha => ?_,
    fun e he => ?_⟩
  · refine hbefore (h.queue a (hq.order.subset ha) e (hq.queue e he) ?_)
    rw [← Bool.not_eq_true]
    exact fun hc => absurd (hq.called e hc) (ne_true_of_eq_false hcalled)
  · rw [hq.when, hq.now]
    exact h.past a (hq.order.subset ha)
  · rw [hq.when, hq.now]
    exact h.future e (hq.queue e he)

theorem Inv.lt_of_mem_order (h : s.Inv x) : ∀ a ∈ s.order, a < s.made := by
  intro a ha
  obtain ha | ha := List.mem_append.mp ha
  · obtain ⟨c, hc, rfl⟩ := List.mem_map.mp ha
    exact h.made _ (.inl ((h.called _).mpr ⟨c, List.mem_of_mem_filter hc, rfl⟩))
  · exact (h.due a (List.mem_of_mem_filter ha)).1

/-- What is to be dispatched was made before. -/
theorem enqueue_order (hinv : s.Inv none) (timer : TimerId) (t : VirtualTimer) :
    (s.enqueue timer t).order = s.order := by
  have hpending : s.pending.filter (fun e => !((s.enqueue timer t).events e).mTriggered) =
      s.pending.filter fun e => !(s.events e).mTriggered :=
    List.filter_congr fun e he => by rw [enqueue_events s timer t (hinv.due e he).1]
  exact congrArg (s.successes ++ ·) hpending

/-- The expiry of a new wait is not past. -/
theorem Sorted.enqueue (h : s.Sorted) (hinv : s.Inv none) {timer : TimerId} {t : VirtualTimer}
    (hnow : s.mNow ≤ t.mExpiryTime) : (s.enqueue timer t).Sorted := by
  have hlt := hinv.lt_of_mem_order
  have hqueue (e : EventId) (he : e ∈ s.mEvents) : e < s.made := hinv.made e (.inr (.inr he))
  have horder := enqueue_order hinv timer t
  refine ⟨?_, fun a ha e he hcalled => ?_, fun a ha => ?_, fun e he => ?_⟩
  · rw [horder]
    refine h.sorted.imp_of_mem fun ha hb hab => ?_
    unfold Before at hab ⊢
    rwa [enqueue_events s timer t (hlt _ ha), enqueue_events s timer t (hlt _ hb)]
  · rw [horder] at ha
    unfold Before
    rw [enqueue_events s timer t (hlt a ha)]
    obtain he | he := List.mem_append.mp (show e ∈ s.mEvents ++ [s.made] from he)
    · rw [enqueue_events s timer t (hqueue e he)] at hcalled ⊢
      exact h.queue a ha e he hcalled
    · rw [List.mem_singleton.mp he, enqueue_events_made]
      have hle := le_trans (h.past a ha) hnow
      exact (lt_or_eq_of_le hle).imp_right fun heq => ⟨heq, hlt a ha⟩
  · rw [horder] at ha
    rw [enqueue_events s timer t (hlt a ha)]
    exact h.past a ha
  · obtain he | he := List.mem_append.mp (show e ∈ s.mEvents ++ [s.made] from he)
    · rw [enqueue_events s timer t (hqueue e he)]
      exact h.future e he
    · rw [List.mem_singleton.mp he, enqueue_events_made]
      exact hnow

/-- The sequence numbers are in the order in which the events were enqueued. -/
def Numbered (s : State) (a b : EventId) : Prop :=
  (a < b → (s.events a).mSeq < (s.events b).mSeq) ∧ (b < a → (s.events b).mSeq < (s.events a).mSeq)

instance (s : State) : Std.Symm s.Numbered := ⟨fun _ _ => And.symm⟩

/-- Of two waits that are popped, the first is before the second: on one timer by their sequence
numbers, and on two by the condition. -/
theorem Inv.before_of_popped (hinv : s.Inv none) {n : TimePoint} {toDispatch : List EventId}
    (hP : s.Orderly (.advanceTo n toDispatch)) {a b : EventId} (ha : s.waits a) (hb : s.waits b)
    (hdue : (s.events a).mWhen ≤ n) (hne : a ≠ b) (hless : ¬ (s.events a).less (s.events b)) :
    s.Before a b := by
  obtain hwhen | hwhen := lt_or_ge (s.events a).mWhen (s.events b).mWhen
  · exact .inl hwhen
  obtain hwhen | hwhen := lt_or_eq_of_le hwhen
  · exact absurd (.inl hwhen) hless
  refine .inr ⟨hwhen.symm, Nat.lt_of_le_of_ne (Nat.le_of_not_lt fun hlt => hless ?_) hne⟩
  refine .inr ⟨hwhen.symm, ?_⟩
  by_cases howner : s.owner b = s.owner a
  · obtain ⟨hmadea, hcalleda⟩ := hinv.waits_iff.mp ha
    obtain ⟨hmadeb, hcalledb⟩ := hinv.waits_iff.mp hb
    obtain ⟨t, ht, hmema⟩ := hinv.owned a hmadea hcalleda
    obtain ⟨t', ht', hmemb⟩ := hinv.owned b hmadeb hcalledb
    rw [howner, ht] at ht'
    obtain rfl := Option.some.inj ht'
    have hsorted : t.mEvents.Pairwise s.Numbered := (hinv.sorted _ t ht).imp fun hab =>
      ⟨fun _ => hab.2, fun hba => absurd hba (Nat.not_lt_of_gt hab.1)⟩
    exact (hsorted.forall hmema hmemb hne).2 hlt
  · exact hP.2 b a hb ha hlt howner hwhen (hwhen ▸ hdue)

theorem Sorted.advanceTo (h : s.Sorted) (hinv : s.Inv none) (hidle : s.idle) {n : TimePoint}
    {toDispatch : List EventId} (hP : s.Orderly (.advanceTo n toDispatch)) {s' : State}
    (hs' : s.advanceTo n toDispatch = some s') : s'.Sorted := by
  obtain ⟨left, hpopped, rfl⟩ := advanceTo_some hs'
  have hnow : s.mNow ≤ n := hP.1
  have horder : s.order = s.successes := by
    unfold order pending
    rw [hidle.2]
    exact List.append_nil _
  have hsuccess {a : EventId} (ha : a ∈ s.successes) : a ∈ s.order := horder ▸ ha
  have htaken {e : EventId} (he : e ∈ toDispatch.filter fun e => !(s.events e).mTriggered) :
      e ∈ s.mEvents ∧ (s.events e).mWhen ≤ n ∧ (s.events e).mTriggered = false := by
    obtain ⟨hmem, hcalled⟩ := List.mem_filter.mp he
    obtain ⟨hmem, hdue⟩ := hpopped.taken e hmem
    exact ⟨hmem, hdue, (Bool.not_eq_true' _).mp hcalled⟩
  have hwaits {e : EventId} (hmem : e ∈ s.mEvents) (hcalled : (s.events e).mTriggered = false) :
      s.waits e := hinv.waits_iff.mpr ⟨hinv.made e (.inr (.inr hmem)), hcalled⟩
  refine ⟨List.pairwise_append.mpr ⟨?_, ?_, fun a ha e he => ?_⟩, fun a ha e he hcalled => ?_,
    fun a ha => ?_, fun e he => le_of_lt (hpopped.left e he).2⟩
  · exact horder ▸ h.sorted
  · have hpairs := hpopped.sorted.and (hpopped.nodup hinv.nodup).2
    refine (hpairs.filter _).imp_of_mem fun ha hb hab => ?_
    obtain ⟨hmema, hduea, hcalleda⟩ := htaken ha
    obtain ⟨hmemb, _, hcalledb⟩ := htaken hb
    exact hinv.before_of_popped hP (hwaits hmema hcalleda) (hwaits hmemb hcalledb) hduea hab.2 hab.1
  · obtain ⟨hmem, _, hcalled⟩ := htaken he
    exact h.queue a (hsuccess ha) e hmem hcalled
  · obtain ⟨hmem, hlate⟩ := hpopped.left e he
    obtain ha | ha := List.mem_append.mp ha
    · exact h.queue a (hsuccess ha) e hmem hcalled
    · exact .inl (lt_of_le_of_lt (htaken ha).2.1 hlate)
  · obtain ha | ha := List.mem_append.mp ha
    · exact le_trans (h.past a (hsuccess ha)) hnow
    · exact (htaken ha).2.1

theorem Sorted.step (h : s.Sorted) (hinv : s.Inv none) {a : Action} (hP : s.Orderly a) {s' : State}
    (hs : s.step a = some s') : s'.Sorted := by
  cases a with
  | op op =>
    obtain hq | ⟨timer, t, rfl, ht, hcancelled, rfl⟩ :=
      doOp_quiet (Option.ite_none_right_eq_some.mp hs).2
    · exact h.quiet hq
    · exact h.enqueue hinv (hP t ht hcancelled)
  | advanceTo n toDispatch =>
    obtain ⟨hidle, hs⟩ := Option.ite_none_right_eq_some.mp hs
    exact h.advanceTo hinv hidle hP hs
  | next top => exact h.quiet (next_quiet hs)

theorem Reached.imp {P Q : State → Action → Prop} (hPQ : ∀ s a, P s a → Q s a) (h : Reached P s) :
    Reached Q s := by
  induction h with
  | start => exact .start
  | step _ ha hs ih => exact ih.step (hPQ _ _ ha) hs

theorem Reached.sorted (h : Reached (fun s a => s.Undisturbed a ∧ s.Orderly a) s) : s.Sorted := by
  induction h with
  | start => exact sorted_start
  | step hreached hP hs ih =>
    exact ih.step (hreached.imp fun _ _ h => h.1).inv hP.2 hs

/-- In all runs in which no loop of `VirtualTimer::cancel` is disturbed, callbacks are called
exactly once. They are called in order in those in which also the clock does not go back, expiries
are not past, and sequence numbers of different timers are in the order in which the waits were
enqueued. -/
theorem dispatches (s : State) : (Reached Undisturbed s → s.Once) ∧
    (Reached (fun s a => s.Undisturbed a ∧ s.Orderly a) s → s.Once ∧ s.InOrder) :=
  ⟨Reached.exactlyOnce, fun h => ⟨(h.imp fun _ _ h => h.1).exactlyOnce,
    h.sorted.sorted.sublist (List.sublist_append_left _ _)⟩⟩

/-! ## Three runs -/

instance (e : EventId) : Decidable (s.waits e) := inferInstanceAs (Decidable (_ ∧ _))

instance (s : State) (a : Action) : Decidable (s.Undisturbed a) :=
  match a with
  | .op (.async_wait timer) => inferInstanceAs (Decidable (∀ t ∈ s.timers timer, _ → _))
  | .next _ => by
    unfold Undisturbed
    dsimp only
    split <;> infer_instance
  | .op (.construct _) | .op (.expires ..) | .op (.cancel _) | .op .cancelAllEvents
  | .advanceTo .. => .isTrue trivial

instance (s : State) (a : Action) : Decidable (s.Orderly a) :=
  match a with
  | .op (.async_wait timer) => inferInstanceAs (Decidable (∀ t ∈ s.timers timer, _ → _))
  | .advanceTo n _ =>
    haveI : ∀ e e', Decidable (s.waits e → s.waits e' → e < e' → s.owner e ≠ s.owner e' →
        (s.events e).mWhen = (s.events e').mWhen → (s.events e).mWhen ≤ n →
        (s.events e).mSeq < (s.events e').mSeq) := fun _ _ => inferInstance
    decidable_of_iff (s.mNow ≤ n ∧ ∀ e < s.made, ∀ e' < s.made, s.waits e → s.waits e' → e < e' →
      s.owner e ≠ s.owner e' → (s.events e).mWhen = (s.events e').mWhen → (s.events e).mWhen ≤ n →
      (s.events e).mSeq < (s.events e').mSeq) <| and_congr_right fun _ =>
        ⟨fun h e e' he he' => h e he.1 e' he'.1 he he', fun h e _ e' _ => h e e'⟩
  | .op (.construct _) | .op (.expires ..) | .op (.cancel _) | .op .cancelAllEvents
  | .next _ => .isTrue trivial

/-- The run, if all its steps meet the condition. -/
def runIf (P : State → Action → Prop) [∀ s a, Decidable (P s a)] :
    List Action → State → Option State
  | [], s => some s
  | a :: actions, s => if P s a then (s.step a).bind (runIf P actions) else none

theorem reached_runIf {P : State → Action → Prop} [∀ s a, Decidable (P s a)] {actions : List Action}
    {s' : State} (hreached : Reached P s) (h : runIf P actions s = some s') :
    Reached P s' ∧ actions.foldlM step s = some s' := by
  induction actions generalizing s with
  | nil => exact Option.some.inj h ▸ ⟨hreached, rfl⟩
  | cons a actions ih =>
    obtain ⟨ha, h⟩ := Option.ite_none_right_eq_some.mp h
    obtain ⟨s₁, hs₁, h⟩ := Option.bind_eq_some_iff.mp h
    obtain ⟨hreached', hrun⟩ := ih (hreached.step ha hs₁) h
    exact ⟨hreached', by rw [List.foldlM_cons, hs₁]; exact hrun⟩

/-- Two waits on timer 0, and then one on timer 1, all for the same time. -/
def tied : List Action :=
  [.op (.construct 0), .op (.expires 0 (.expires_at 10)), .next 0,
    .op (.async_wait 0), .op (.async_wait 0),
    .op (.construct 1), .op (.expires 1 (.expires_at 10)), .next 0, .op (.async_wait 1),
    .advanceTo 10 [0, 2, 1], .next 0, .next 0, .next 0, .next 0, .next 0, .next 0, .next 0]

/-- The wait on timer 1 is called before the second one on timer 0. -/
theorem tied_not_inOrder :
    ∃ s, run tied = some s ∧ Reached Undisturbed s ∧ s.successes = [0, 2, 1] ∧ ¬ s.InOrder := by
  have hrun : (runIf Undisturbed tied {}).map (fun s => (s.successes, decide s.InOrder)) =
      some ([0, 2, 1], false) := by
    decide +kernel
  obtain ⟨s, hs, heq⟩ := Option.map_eq_some_iff.mp hrun
  obtain ⟨hsuccesses, horder⟩ := Prod.mk.inj heq
  obtain ⟨hreached, hs⟩ := reached_runIf .start hs
  exact ⟨s, hs, hreached, hsuccesses, of_decide_eq_false horder⟩

/-- The callback of a wait that is cancelled waits again. -/
def rearmed : List Action :=
  [.op (.construct 0), .op (.expires 0 (.expires_at 10)), .next 0, .op (.async_wait 0),
    .op (.cancel 0), .next 0, .op (.expires 0 (.expires_at 20)), .op (.async_wait 0), .next 0,
    .next 0, .op (.cancel 0), .next 0, .advanceTo 20 [0, 1], .next 0, .next 0]

/-- The second wait is cancelled too, and called with success. -/
theorem rearmed_succeeds :
    ∃ s, run rearmed = some s ∧ s.cancelled 1 = true ∧ s.successes = [1] := by
  have hrun : (run rearmed).map (fun s => (s.cancelled 1, s.successes)) = some (true, [1]) := by
    decide +kernel
  obtain ⟨s, hs, heq⟩ := Option.map_eq_some_iff.mp hrun
  obtain ⟨hcancelled, hsuccesses⟩ := Prod.mk.inj heq
  exact ⟨s, hs, hcancelled, hsuccesses⟩

/-- A wait on each of two timers. When the first has been called, the second is cancelled, and both
timers wait for the same time. -/
def twoTimers : List Action :=
  [.op (.construct 0), .op (.expires 0 (.expires_from_now 10)), .next 0, .op (.async_wait 0),
    .op (.construct 1), .op (.expires 1 (.expires_at 20)), .next 0, .op (.async_wait 1),
    .advanceTo 10 [0], .next 0, .next 0, .next 0,
    .op (.expires 1 (.expires_at 10)), .next 0, .next 0, .next 0, .op (.async_wait 1),
    .op (.async_wait 0), .advanceTo 10 [2, 3], .next 0, .next 0, .next 0, .next 0, .next 0]

theorem dispatches_twoTimers :
    ∃ s, run twoTimers = some s ∧ s.successes = [0, 2, 3] ∧ s.cancelled 1 = true ∧ s.Once ∧
      s.InOrder := by
  have hrun : (runIf (fun s a => s.Undisturbed a ∧ s.Orderly a) twoTimers {}).map
      (fun s => (s.successes, s.cancelled 1)) = some ([0, 2, 3], true) := by
    decide +kernel
  obtain ⟨s, hs, heq⟩ := Option.map_eq_some_iff.mp hrun
  obtain ⟨hsuccesses, hcancelled⟩ := Prod.mk.inj heq
  obtain ⟨hreached, hs⟩ := reached_runIf .start hs
  exact ⟨s, hs, hsuccesses, hcancelled, (dispatches s).2 hreached⟩

end State

end SmartCore.Util.Timer
