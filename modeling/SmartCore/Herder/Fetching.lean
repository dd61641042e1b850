import Mathlib
import SmartCore.Herder.PendingEnvelopes

/-!
# Envelopes are released

**Theorem (`envelopes_released`).** In every run, an envelope is handed to the queue of SCP at most
once until its slot is forgotten, and only when its items are cached. If moreover

* no item is evicted that an envelope being fetched refers to, or that has a tracker,
* no envelope that has everything is turned away when it is received once more,
* waiting lists are cleared only of slots that are not being fetched any more, and
* the values of an envelope can be decoded,

then every envelope being fetched waits with an armed tracker for each item that is not cached, and
one of its items is not cached.

The first condition can fail. A tracker stays when its item has arrived, with its timer cancelled.
If the item is evicted after that, `fetch` finds the tracker, adds the envelope to its waiting list and
asks nobody (`never_asked`). Any peer can flush the cache, because transaction sets are taken from
everybody, asked for or not.

While items arrive, an envelope that has everything may still be in the waiting list of an item
whose loop is going on further up the stack. `Draining` says so, with the items `A` of these loops,
and the induction is on the depth of the stack (`exec_spec`).
-/

namespace SmartCore.Herder.Pending

/-! ## What is said of a run -/

/-- The event is none that the conditions exclude. -/
def Event.Harmless : Event → Prop
  | .handed _ _ => True
  | .forgot _ => True
  | _ => False

def Safe (log : List Event) : Prop := ∀ e ∈ log, e.Harmless

/-- The envelopes that were handed over and whose slot was not forgotten since. -/
def handedSince : List Event → List SCPEnvelope
  | [] => []
  | .handed env _ :: log => env :: handedSince log
  | .forgot slotIndex :: log => (handedSince log).filter (·.slotIndex ≠ slotIndex)
  | _ :: log => handedSince log

/-- An envelope is handed over at most once until its slot is forgotten. -/
def OnceEach : List Event → Prop
  | [] => True
  | .handed env _ :: log => env ∉ handedSince log ∧ OnceEach log
  | _ :: log => OnceEach log

/-- An envelope is handed over only when its items are cached. -/
def HandedCached (log : List Event) : Prop :=
  ∀ env caches, .handed env caches ∈ log → ∀ item ∈ env.items, caches.exists item = true

/-- An envelope being fetched waits with an armed tracker for each item that is not cached. -/
def Tracked (s : State) : Prop :=
  ∀ env ∈ s.mFetchingEnvelopes, ∀ item ∈ env.items, s.caches.exists item = true ∨
    ∃ t, s.mTrackers item = some t ∧ env ∈ t.mWaitingEnvelopes ∧ t.armed = true

/-- No envelope that is being fetched has everything. -/
def Released (s : State) : Prop :=
  ∀ env ∈ s.mFetchingEnvelopes, isFullyFetched s.caches env ≠ some true

/-! ## Invariants -/

/-- What holds whatever happens. -/
structure Always (s : State) : Prop where
  once : OnceEach s.log
  cached : HandedCached s.log
  nodup : s.mFetchingEnvelopes.Nodup
  disjoint : ∀ env ∈ s.mFetchingEnvelopes, env ∉ s.mProcessedEnvelopes
  processed : ∀ env ∈ handedSince s.log, env ∈ s.mProcessedEnvelopes

/-- A tracker asks, unless its item is cached. -/
def Armed (s : State) : Prop :=
  ∀ item t, s.mTrackers item = some t → t.armed = true ∨ s.caches.exists item = true

/-- An envelope that has everything is about to be received once more, because an item of `A` that
it waits for has just arrived. -/
def Draining (A : List Item) (s : State) : Prop :=
  ∀ env ∈ s.mFetchingEnvelopes, isFullyFetched s.caches env = some true →
    ∃ item ∈ A, ∃ t, s.mTrackers item = some t ∧ env ∈ t.mWaitingEnvelopes

/-- What holds if the conditions are met. -/
structure Good (A : List Item) (s : State) : Prop where
  tracked : Tracked s
  armed : Armed s
  draining : Draining A s

/-- Trackers stay, and so do the items that have one. -/
structure Kept (s s' : State) : Prop where
  log : s.log <:+ s'.log
  tracker : ∀ item, (s.mTrackers item).isSome → (s'.mTrackers item).isSome
  cached : Safe s'.log → ∀ item, (s.mTrackers item).isSome → s.caches.exists item = true →
    s'.caches.exists item = true

variable {world : World} {s t u : State} {A : List Item}

theorem Safe.of_suffix {log log' : List Event} (h : Safe log') (hlog : log <:+ log') : Safe log :=
  fun e he => h e (hlog.subset he)

theorem Kept.refl (s : State) : Kept s s := ⟨List.suffix_rfl, fun _ h => h, fun _ _ _ h => h⟩

theorem Kept.trans (h : Kept s t) (h' : Kept t u) : Kept s u where
  log := h.log.trans h'.log
  tracker item hsome := h'.tracker item (h.tracker item hsome)
  cached hsafe item hsome hcached :=
    h'.cached hsafe item (h.tracker item hsome)
      (h.cached (hsafe.of_suffix h'.log) item hsome hcached)

/-! ## Caches -/

@[simp] theorem Caches.get_set_self (caches : Caches) (hashes : List Hash) (kind : Kind) :
    (caches.set hashes kind).get kind = hashes := by
  cases kind <;> rfl

theorem Caches.get_set_of_ne (caches : Caches) (hashes : List Hash) {kind kind' : Kind}
    (h : kind' ≠ kind) : (caches.set hashes kind).get kind' = caches.get kind' := by
  cases kind <;> cases kind' <;> first | rfl | exact absurd rfl h

theorem Caches.exists_iff {caches : Caches} {item : Item} :
    caches.exists item = true ↔ item.2 ∈ caches.get item.1 := by
  rw [Caches.exists, List.contains_iff_mem]

/-- Using an item leaves the same items. -/
theorem Caches.exists_use (caches : Caches) (item i : Item) :
    (caches.use item).exists i = true ↔ caches.exists i = true := by
  rw [Caches.use]
  by_cases h : caches.exists item = true
  · rw [if_pos h, Caches.exists_iff, Caches.exists_iff]
    have hmem := Caches.exists_iff.mp h
    by_cases hkind : i.1 = item.1
    · rw [hkind, Caches.get_set_self]
      by_cases heq : i.2 = item.2
      · simp [heq, hmem]
      · rw [List.mem_cons, List.mem_erase_of_ne heq]
        simp [heq]
    · rw [Caches.get_set_of_ne _ _ hkind]
  · rw [if_neg h]

/-- What is cached after `put` was cached before, or is the item itself. -/
theorem Caches.exists_of_put {caches : Caches} {item i : Item}
    (h : (caches.put item).1.exists i = true) : i = item ∨ caches.exists i = true := by
  have hsub : ∀ l : List Hash, l ⊆ item.2 :: (caches.get item.1).erase item.2 →
      (caches.set l item.1).exists i = true → i = item ∨ caches.exists i = true := by
    intro l hl hi
    rw [Caches.exists_iff] at hi ⊢
    by_cases hkind : i.1 = item.1
    · rw [hkind, Caches.get_set_self] at hi
      rw [hkind]
      rcases List.mem_cons.mp (hl hi) with heq | hmem
      · exact Or.inl (Prod.ext hkind heq)
      · exact Or.inr (List.mem_of_mem_erase hmem)
    · rw [Caches.get_set_of_ne _ _ hkind] at hi
      exact Or.inr hi
  rw [Caches.put] at h
  split_ifs at h
  · exact hsub _ (List.dropLast_subset _) h
  · exact hsub _ (List.Subset.refl _) h

theorem mem_dropLast_of_ne {α : Type} {l : List α} {a : α} (h : a ∈ l) (hne : l.getLast? ≠ some a) :
    a ∈ l.dropLast := by
  have hl : l ≠ [] := List.ne_nil_of_mem h
  rw [← List.dropLast_append_getLast hl] at h
  rcases List.mem_append.mp h with h | h
  · exact h
  · rw [List.mem_singleton] at h
    rw [List.getLast?_eq_some_getLast hl, h] at hne
    exact absurd rfl hne

/-- Only the victim of `put` is evicted. -/
theorem Caches.exists_put {caches : Caches} {item i : Item}
    (h : i = item ∨ caches.exists i = true) (hne : (caches.put item).2 ≠ some i) :
    (caches.put item).1.exists i = true := by
  rw [Caches.put] at hne ⊢
  by_cases hkind : i.1 = item.1
  · have hmem : i.2 ∈ item.2 :: (caches.get item.1).erase item.2 := by
      rcases h with rfl | h
      · exact List.mem_cons_self
      · rw [Caches.exists_iff, hkind] at h
        by_cases heq : i.2 = item.2
        · rw [heq]
          exact List.mem_cons_self
        · exact List.mem_cons_of_mem _ ((List.mem_erase_of_ne heq).mpr h)
    split_ifs at hne ⊢
    · rw [Caches.exists_iff, hkind, Caches.get_set_self]
      refine mem_dropLast_of_ne hmem fun hlast => hne ?_
      rw [hlast, ← hkind]
      rfl
    · rw [Caches.exists_iff, hkind, Caches.get_set_self]
      exact hmem
  · have hcached := h.resolve_left fun heq => hkind (by rw [heq])
    rw [Caches.exists_iff] at hcached
    split_ifs <;> rw [Caches.exists_iff, Caches.get_set_of_ne _ _ hkind] <;> exact hcached

/-- The item itself is at the front. -/
theorem Caches.exists_put_self (caches : Caches) (item : Item) :
    (caches.put item).1.exists item = true := by
  rw [Caches.put]
  by_cases h : CACHE_SIZE < (item.2 :: (caches.get item.1).erase item.2).length
  · rw [if_pos h, Caches.exists_iff, Caches.get_set_self]
    have hlen : 1 < (item.2 :: (caches.get item.1).erase item.2).length :=
      lt_trans (by decide) h
    cases hrest : (caches.get item.1).erase item.2 with
    | nil => simp [hrest] at hlen
    | cons a l => exact List.mem_cons_self
  · rw [if_neg h, Caches.exists_iff, Caches.get_set_self]
    exact List.mem_cons_self

theorem isFullyFetchedValues_iff (caches : Caches) (values : List (Option Hash)) :
    isFullyFetchedValues caches values = some true ↔
      none ∉ values ∧ ∀ h, some h ∈ values → caches.exists (.txSet, h) = true := by
  induction values with
  | nil => simp [isFullyFetchedValues]
  | cons v values ih =>
    cases v with
    | none => simp [isFullyFetchedValues]
    | some h =>
      rw [isFullyFetchedValues]
      by_cases hcached : caches.exists (.txSet, h) = true
      · rw [if_pos hcached, ih]
        simp only [List.mem_cons, reduceCtorEq, false_or, Option.some.injEq]
        constructor
        · intro hall
          refine ⟨hall.1, fun h' hmem => ?_⟩
          rcases hmem with rfl | hmem
          · exact hcached
          · exact hall.2 h' hmem
        · intro hall
          exact ⟨hall.1, fun h' hmem => hall.2 h' (Or.inr hmem)⟩
      · rw [if_neg hcached]
        constructor
        · intro hfalse
          cases hfalse
        · intro hall
          exact absurd (hall.2 h List.mem_cons_self) hcached

/-- An envelope has everything if its values can be decoded and its items are cached. -/
theorem isFullyFetched_iff (caches : Caches) (env : SCPEnvelope) :
    isFullyFetched caches env = some true ↔
      none ∉ env.values ∧ ∀ item ∈ env.items, caches.exists item = true := by
  rw [isFullyFetched]
  have hitems : (∀ item ∈ env.items, caches.exists item = true) ↔
      caches.exists (.qSet, env.quorumSetHash) = true ∧
        ∀ h, some h ∈ env.values → caches.exists (.txSet, h) = true := by
    simp [SCPEnvelope.items]
  rw [hitems]
  by_cases hcached : caches.exists (.qSet, env.quorumSetHash) = true
  · rw [if_pos hcached, isFullyFetchedValues_iff]
    simp [hcached]
  · rw [if_neg hcached]
    simp [hcached]

/-! ## Steps that keep the invariants -/

/-- Fewer envelopes are fetched, with the same items in the caches and the same trackers. -/
theorem Good.shrink (h : Good A s) (hfetching : t.mFetchingEnvelopes ⊆ s.mFetchingEnvelopes)
    (hcached : ∀ i, t.caches.exists i = true ↔ s.caches.exists i = true)
    (htrackers : t.mTrackers = s.mTrackers) : Good A t where
  tracked env henv item hitem := by
    rw [hcached, htrackers]
    exact h.tracked env (hfetching henv) item hitem
  armed item tracker htracker := by
    rw [hcached]
    rw [htrackers] at htracker
    exact h.armed item tracker htracker
  draining env henv hfull := by
    rw [htrackers]
    refine h.draining env (hfetching henv) ?_
    rw [isFullyFetched_iff] at hfull ⊢
    refine ⟨hfull.1, ?_⟩
    intro item hitem
    exact (hcached item).mp (hfull.2 item hitem)

/-- The log grows, and caches and trackers stay the same. -/
theorem Kept.of_same (hlog : s.log <:+ t.log) (hcaches : t.caches = s.caches)
    (htrackers : t.mTrackers = s.mTrackers) : Kept s t where
  log := hlog
  tracker item hsome := by
    rw [htrackers]
    exact hsome
  cached _ item _ hcached := by
    rw [hcaches]
    exact hcached

/-- What a call ensures if it returns. -/
structure Done (A : List Item) (s s' : State) : Prop where
  always : Always s'
  kept : Kept s s'
  good : Safe s'.log → Good A s'

/-- What holds when the stack overflows. -/
structure Died (s : State) : Prop where
  always : Always s
  tracked : Safe s.log → Tracked s

theorem Done.trans (h : Kept s t) (h' : Done A t u) : Done A s u :=
  ⟨h'.always, h.trans h'.kept, h'.good⟩

/-- All but `env` are about to be received once more. -/
def DrainingBut (A : List Item) (env : SCPEnvelope) (s : State) : Prop :=
  ∀ e ∈ s.mFetchingEnvelopes, e ≠ env → isFullyFetched s.caches e = some true →
    ∃ item ∈ A, ∃ t, s.mTrackers item = some t ∧ e ∈ t.mWaitingEnvelopes

/-- What holds before the call. -/
def Ready (A : List Item) (s : State) : Call → Prop
  | .recvSCPEnvelope env => Tracked s ∧ Armed s ∧ DrainingBut A env s
  | .recv item => Good (item :: A) s ∧ s.caches.exists item = true
  | _ => Good A s

theorem Ready.tracked {call : Call} (h : Ready A s call) : Tracked s := by
  cases call with
  | recvSCPEnvelope env => exact h.1
  | recv item => exact h.1.tracked
  | processSCPQueue => exact Good.tracked h
  | processSlots slots => exact Good.tracked h
  | processSCPQueueUpToIndex slotIndex => exact Good.tracked h
  | react reactions => exact Good.tracked h

/-- The calls do what they are to do. -/
def Spec (call : Call → PendingM Unit) : Prop :=
  ∀ A c s, Always s → (Safe s.log → Ready A s c) →
    wp (call c) (fun _ s' => Done A s s') (fun _ s' => Died s') s

/-- A call, and what comes after it. -/
theorem Spec.wp_call {call : Call → PendingM Unit} (hcall : Spec call) {c : Call}
    {Q : Unit → State → Prop} (halways : Always s) (hready : Safe s.log → Ready A s c)
    (hQ : ∀ s', Done A s s' → Q () s') : wp (call c) Q (fun _ s' => Died s') s :=
  wp_mono (hcall A c s halways hready) (fun _ s' h => hQ s' h) (fun _ _ h => h)

/-- Nothing is logged, or an event that the conditions exclude. -/
def Logged (log log' : List Event) : Prop :=
  log' = log ∨ ∃ e, ¬ Event.Harmless e ∧ log' = e :: log

theorem Logged.suffix {log log' : List Event} (h : Logged log log') : log <:+ log' := by
  rcases h with h | ⟨e, -, h⟩
  · exact ⟨[], h.symm⟩
  · exact ⟨[e], h.symm⟩

theorem handedSince_cons {e : Event} (he : ¬ e.Harmless) (log : List Event) :
    handedSince (e :: log) = handedSince log := by
  cases e <;> first | rfl | exact absurd trivial he

/-- Events that are excluded are not looked at. -/
theorem Always.of_sublist (h : Always s) (hlog : Logged s.log t.log)
    (hfetching : t.mFetchingEnvelopes.Sublist s.mFetchingEnvelopes)
    (hprocessed : t.mProcessedEnvelopes = s.mProcessedEnvelopes) : Always t := by
  have hlog : OnceEach t.log ∧ HandedCached t.log ∧ handedSince t.log = handedSince s.log := by
    rcases hlog with hlog | ⟨e, he, hlog⟩
    · rw [hlog]
      exact ⟨h.once, h.cached, rfl⟩
    · rw [hlog]
      refine ⟨?_, ?_, handedSince_cons he _⟩
      · cases e <;> first | exact h.once | exact absurd trivial he
      · intro env caches hmem
        rcases List.mem_cons.mp hmem with rfl | hmem
        · exact absurd trivial he
        · exact h.cached env caches hmem
  refine ⟨hlog.1, hlog.2.1, hfetching.nodup h.nodup, ?_, ?_⟩
  · rw [hprocessed]
    intro env henv
    exact h.disjoint env (hfetching.subset henv)
  · rw [hlog.2.2, hprocessed]
    exact h.processed

theorem Safe.harmless {e : Event} {log : List Event} (h : Safe (e :: log)) : e.Harmless :=
  h e List.mem_cons_self

/-- An envelope has been added to the waiting lists of those of `items` that are not cached. -/
structure Fetches (env : SCPEnvelope) (items : List Item) (s t : State) : Prop where
  caches : t.caches = s.caches
  log : t.log = s.log
  fetching : t.mFetchingEnvelopes = s.mFetchingEnvelopes
  processed : t.mProcessedEnvelopes = s.mProcessedEnvelopes
  waiting : ∀ i tr, s.mTrackers i = some tr → ∃ tr', t.mTrackers i = some tr' ∧
    tr.mWaitingEnvelopes ⊆ tr'.mWaitingEnvelopes ∧ tr'.armed = tr.armed
  armed : Armed s → Armed t
  waits : Armed s → ∀ item ∈ items, t.caches.exists item = true ∨
    ∃ tr, t.mTrackers item = some tr ∧ env ∈ tr.mWaitingEnvelopes ∧ tr.armed = true

theorem Fetches.refl {env : SCPEnvelope} (s : State) : Fetches env [] s s where
  caches := rfl
  log := rfl
  fetching := rfl
  processed := rfl
  waiting _ tr h := ⟨tr, h, List.Subset.refl _, rfl⟩
  armed h := h
  waits _ _ hitem := nomatch hitem

theorem Fetches.trans {env : SCPEnvelope} {is js : List Item} (h : Fetches env is s t)
    (h' : Fetches env js t u) : Fetches env (is ++ js) s u where
  caches := h'.caches.trans h.caches
  log := h'.log.trans h.log
  fetching := h'.fetching.trans h.fetching
  processed := h'.processed.trans h.processed
  waiting i tr htr := by
    obtain ⟨tr', htr', hsub, harmed⟩ := h.waiting i tr htr
    obtain ⟨tr'', htr'', hsub', harmed'⟩ := h'.waiting i tr' htr'
    exact ⟨tr'', htr'', List.Subset.trans hsub hsub', harmed'.trans harmed⟩
  armed harmed := h'.armed (h.armed harmed)
  waits harmed item hitem := by
    rcases List.mem_append.mp hitem with hitem | hitem
    · rcases h.waits harmed item hitem with hcached | ⟨tr, htr, hmem, harm⟩
      · left
        rw [h'.caches]
        exact hcached
      · obtain ⟨tr', htr', hsub, harm'⟩ := h'.waiting item tr htr
        exact Or.inr ⟨tr', htr', hsub hmem, harm'.trans harm⟩
    · exact h'.waits (h.armed harmed) item hitem

@[simp] theorem Tracker.tryNextPeer_waiting (n : ℕ) (tr : Tracker) :
    (tr.tryNextPeer world n).mWaitingEnvelopes = tr.mWaitingEnvelopes := by
  rw [Tracker.tryNextPeer]
  split_ifs <;> split <;> rfl

@[simp] theorem Tracker.tryNextPeer_armed (n : ℕ) (tr : Tracker) :
    (tr.tryNextPeer world n).armed = true := by
  rw [Tracker.tryNextPeer]
  split <;> rfl

theorem fetch_spec {E : Fault → State → Prop} {item : Item} {env : SCPEnvelope}
    (hitem : s.caches.exists item = false) :
    wp (fetch world item env) (fun _ t => Fetches env [item] s t) E s := by
  rw [fetch, wp_bind, wp_get]
  -- the tracker of the item is `tr` now, and nothing else has changed
  have hfetches : ∀ tr : Tracker, env ∈ tr.mWaitingEnvelopes → (Armed s → tr.armed = true) →
      (∀ old, s.mTrackers item = some old → old.mWaitingEnvelopes ⊆ tr.mWaitingEnvelopes ∧
        tr.armed = old.armed) →
      wp (setTracker item (some tr)) (fun _ t => Fetches env [item] s t) E s := by
    intro tr henv harmed hold
    rw [setTracker, wp_modify]
    refine ⟨rfl, rfl, rfl, rfl, ?_, ?_, ?_⟩
    · intro i old htr
      by_cases heq : i = item
      · subst heq
        exact ⟨tr, Function.update_self i _ _, hold old htr⟩
      · exact ⟨old, (Function.update_of_ne heq _ _).trans htr, List.Subset.refl _, rfl⟩
    · intro hall i old htr
      by_cases heq : i = item
      · subst heq
        have htr : some tr = some old := (Function.update_self i _ _).symm.trans htr
        cases htr
        exact Or.inl (harmed hall)
      · exact hall i old ((Function.update_of_ne heq _ _).symm.trans htr)
    · intro hall i hi
      rw [List.mem_singleton] at hi
      subst hi
      exact Or.inr ⟨tr, Function.update_self i _ _, henv, harmed hall⟩
  cases htr : s.mTrackers item with
  | none =>
    refine hfetches _ ?_ ?_ ?_
    · rw [Tracker.tryNextPeer_waiting]
      exact List.mem_append_right _ List.mem_cons_self
    · intro _
      exact Tracker.tryNextPeer_armed _ _
    · intro old hold
      rw [htr] at hold
      cases hold
  | some tr =>
    refine hfetches _ (List.mem_append_right _ List.mem_cons_self) ?_ ?_
    · intro harmed
      -- a tracker is disarmed only if its item is cached
      rcases harmed item tr htr with harm | hcached
      · exact harm
      · rw [hitem] at hcached
        cases hcached
    · intro old hold
      rw [htr] at hold
      cases hold
      exact ⟨List.subset_append_left _ _, rfl⟩

theorem fetch_if_missing {E : Fault → State → Prop} {item : Item} {env : SCPEnvelope} :
    wp (runIf (!s.caches.exists item) (fetch world item env)) (fun _ t => Fetches env [item] s t) E
      s := by
  rw [wp_runIf]
  constructor
  · intro hmissing
    exact fetch_spec (by simpa using hmissing)
  · intro hcached
    have hcached : s.caches.exists item = true := by simpa using hcached
    refine { (Fetches.refl s : Fetches env [] s s) with waits := ?_ }
    intro _ i hi
    rw [List.mem_singleton.mp hi]
    exact Or.inl hcached

theorem startFetchValues_spec {E : Fault → State → Prop} {env : SCPEnvelope}
    (values : List (Option Hash)) :
    wp (startFetchValues world env values) (fun b t => ∃ items, Fetches env items s t ∧
      (b = true → (values.filterMap id).map (fun h => ((.txSet, h) : Item)) ⊆ items)) E s := by
  induction values generalizing s with
  | nil => exact ⟨[], Fetches.refl s, fun _ => List.Subset.refl _⟩
  | cons v values ih =>
    cases v with
    | none => exact ⟨[], Fetches.refl s, nofun⟩
    | some h =>
      rw [startFetchValues, wp_bind, wp_get, wp_bind]
      refine wp_mono fetch_if_missing ?_ (fun _ _ h => h)
      intro _ t hfetch
      refine wp_mono ih ?_ (fun _ _ h => h)
      intro b u hrest
      obtain ⟨items, hrest, hsub⟩ := hrest
      refine ⟨_, hfetch.trans hrest, ?_⟩
      intro hb
      exact List.cons_subset_cons _ (hsub hb)

/-- If every value can be decoded, the envelope waits for every item that is not cached. -/
theorem startFetch_spec {E : Fault → State → Prop} {env : SCPEnvelope} :
    wp (startFetch world env) (fun b t => ∃ items, Fetches env items s t ∧
      (b = true → env.items ⊆ items)) E s := by
  rw [startFetch, wp_bind, wp_get, wp_bind]
  refine wp_mono fetch_if_missing ?_ (fun _ _ h => h)
  intro _ t hfetch
  refine wp_mono (startFetchValues_spec env.values) ?_ (fun _ _ h => h)
  intro b u hrest
  obtain ⟨items, hrest, hsub⟩ := hrest
  refine ⟨_, hfetch.trans hrest, ?_⟩
  intro hb
  exact List.cons_subset_cons _ (hsub hb)

/-- A new envelope: it waits for every item that is not cached. -/
theorem Fetches.ready {env : SCPEnvelope} {items : List Item} (hitems : env.items ⊆ items)
    (h : Fetches env items { s with mFetchingEnvelopes := env :: s.mFetchingEnvelopes } t)
    (htracked : Tracked s) (harmed : Armed s) (hdraining : DrainingBut A env s) :
    Tracked t ∧ Armed t ∧ DrainingBut A env t := by
  refine ⟨?_, h.armed harmed, ?_⟩
  · intro e he item hitem
    rw [h.fetching] at he
    rcases List.mem_cons.mp he with rfl | he
    · exact h.waits harmed item (hitems hitem)
    · rcases htracked e he item hitem with hcached | ⟨tr, htr, hmem, harm⟩
      · left
        rw [h.caches]
        exact hcached
      · obtain ⟨tr', htr', hsub, harm'⟩ := h.waiting item tr htr
        exact Or.inr ⟨tr', htr', hsub hmem, harm'.trans harm⟩
  · intro e he hne hfull
    rw [h.fetching] at he
    rw [h.caches] at hfull
    have he := (List.mem_cons.mp he).resolve_left hne
    obtain ⟨item, hitem, tr, htr, hmem⟩ := hdraining e he hne hfull
    obtain ⟨tr', htr', hsub, -⟩ := h.waiting item tr htr
    exact ⟨item, hitem, tr', htr', hsub hmem⟩

/-- An envelope that has everything is not turned away. -/
theorem drop_spec {env : SCPEnvelope} (halways : Always s)
    (hready : Safe s.log → Tracked s ∧ Armed s ∧ DrainingBut A env s) :
    wp (drop env) (fun _ s' => Done A s s') (fun _ s' => Died s') s := by
  rw [drop, wp_modify]
  by_cases h : env ∈ s.mFetchingEnvelopes ∧ isFullyFetched s.caches env = some true
  · rw [if_pos h]
    refine ⟨halways.of_sublist (Or.inr ⟨_, id, rfl⟩) (List.Sublist.refl _) rfl, ?_, ?_⟩
    · exact Kept.of_same (List.suffix_cons _ _) rfl rfl
    · intro hsafe
      exact absurd hsafe.harmless id
  · rw [if_neg h]
    refine ⟨halways, Kept.refl s, ?_⟩
    intro hsafe
    obtain ⟨htracked, harmed, hdraining⟩ := hready hsafe
    refine ⟨htracked, harmed, ?_⟩
    intro e he hfull
    refine hdraining e he ?_ hfull
    rintro rfl
    exact h ⟨he, hfull⟩

/-- The waiting list of a tracker whose item is cached may lose an envelope, or its timer. -/
theorem Good.setTracker {item : Item} (tr : Option Tracker) (h : Good (item :: A) s)
    (hitem : s.caches.exists item = true) :
    Tracked { s with mTrackers := Function.update s.mTrackers item tr, asked := s.asked + 1 } ∧
      Armed { s with mTrackers := Function.update s.mTrackers item tr, asked := s.asked + 1 } := by
  constructor
  · intro env henv i hi
    by_cases heq : i = item
    · rw [heq]
      exact Or.inl hitem
    · rcases h.tracked env henv i hi with hcached | ⟨tr', htr', hmem, harm⟩
      · exact Or.inl hcached
      · exact Or.inr ⟨tr', (Function.update_of_ne heq _ _).trans htr', hmem, harm⟩
  · intro i tr' htr'
    by_cases heq : i = item
    · rw [heq]
      exact Or.inr hitem
    · exact h.armed i tr' ((Function.update_of_ne heq _ _).symm.trans htr')

theorem State.logged_evict (s : State) (victim : Option Item) :
    Logged s.log (s.evict victim) := by
  cases victim with
  | none => exact Or.inl rfl
  | some victim =>
    rw [State.evict]
    split_ifs
    · exact Or.inr ⟨.evicted victim, id, rfl⟩
    · exact Or.inl rfl

/-- An item that has a tracker, or that an envelope refers to, is not evicted. -/
theorem State.not_safe_evict {victim : Item}
    (h : (s.mTrackers victim).isSome ∨ ∃ env ∈ s.mFetchingEnvelopes, victim ∈ env.items) :
    ¬ Safe (s.evict (some victim)) := by
  intro hsafe
  rw [State.evict, if_pos h] at hsafe
  exact hsafe.harmless

theorem pop_spec {E : Fault → State → Prop} (slotIndex : ℕ) (halways : Always s)
    (hready : Safe s.log → Good A s) :
    wp (pop slotIndex) (fun _ s' => Done A s s') E s := by
  rw [pop, wp_bind, wp_get]
  dsimp only
  split
  · exact ⟨halways, Kept.refl s, hready⟩
  · rw [wp_bind, wp_set]
    refine ⟨halways.of_sublist (Or.inl rfl) (List.Sublist.refl _) rfl,
      Kept.of_same List.suffix_rfl rfl rfl, ?_⟩
    intro hsafe
    exact (hready hsafe).shrink (List.Subset.refl _) (fun _ => Iff.rfl) rfl

/-- The slot is forgotten, and all its envelopes with it. -/
theorem slotClosed_spec {E : Fault → State → Prop} (slotIndex : ℕ) (halways : Always s)
    (hready : Safe s.log → Good A s) :
    wp (slotClosed slotIndex) (fun _ s' => Done A s s') E s := by
  rw [slotClosed, wp_runIf]
  constructor
  · intro _
    rw [wp_modify]
    refine ⟨⟨halways.once, ?_, halways.nodup.filter _, ?_, ?_⟩, ?_, ?_⟩
    · intro env caches hmem
      have hmem := (List.mem_cons.mp hmem).resolve_left nofun
      exact halways.cached env caches hmem
    · intro env henv hprocessed
      exact halways.disjoint env (List.mem_filter.mp henv).1 (List.mem_filter.mp hprocessed).1
    · intro env henv
      obtain ⟨henv, hslot⟩ := List.mem_filter.mp henv
      exact List.mem_filter.mpr ⟨halways.processed env henv, hslot⟩
    · exact Kept.of_same (List.suffix_cons _ _) rfl rfl
    · intro hsafe
      refine (hready (hsafe.of_suffix (List.suffix_cons _ _))).shrink ?_ (fun _ => Iff.rfl) rfl
      exact List.filter_sublist.subset
  · intro _
    exact ⟨halways, Kept.refl s, hready⟩

section Calls

variable {call : Call → PendingM Unit} (hcall : Spec call)
include hcall

/-- An envelope that has just been added, or that has just been received once more. -/
theorem releaseIfFetched_spec {env : SCPEnvelope} (halways : Always s)
    (hmem : env ∈ s.mFetchingEnvelopes)
    (hready : Safe s.log → Tracked s ∧ Armed s ∧ DrainingBut A env s) :
    wp (releaseIfFetched call env) (fun _ s' => Done A s s') (fun _ s' => Died s') s := by
  rw [releaseIfFetched, wp_bind, wp_get, wp_runIf]
  constructor
  · intro hfull
    rw [envelopeReady, wp_bind, wp_set, wp_bind, wp_modify]
    have hitems := ((isFullyFetched_iff s.caches env).mp hfull).2
    have hnew : env ∉ handedSince s.log := by
      intro hhanded
      exact halways.disjoint env hmem (halways.processed env hhanded)
    refine hcall.wp_call (A := A) ?_ ?_ ?_
    · refine ⟨⟨hnew, halways.once⟩, ?_, halways.nodup.erase env, ?_, ?_⟩
      · intro env' caches hevent
        rcases List.mem_cons.mp hevent with heq | hevent
        · cases heq
          exact hitems
        · exact halways.cached env' caches hevent
      · intro env' henv' hprocessed
        obtain ⟨hne, henv'⟩ := (halways.nodup.mem_erase_iff).mp henv'
        rcases List.mem_append.mp hprocessed with hprocessed | hprocessed
        · exact halways.disjoint env' henv' hprocessed
        · exact hne (List.mem_singleton.mp hprocessed)
      · intro env' henv'
        rcases List.mem_cons.mp henv' with rfl | henv'
        · exact List.mem_append_right _ List.mem_cons_self
        · exact List.mem_append_left _ (halways.processed env' henv')
    · intro hsafe
      obtain ⟨htracked, harmed, hdraining⟩ := hready (hsafe.of_suffix (List.suffix_cons _ _))
      refine ⟨?_, harmed, ?_⟩
      · intro env' henv'
        exact htracked env' (List.mem_of_mem_erase henv')
      · intro env' henv' hfull'
        obtain ⟨hne, henv'⟩ := (halways.nodup.mem_erase_iff).mp henv'
        exact hdraining env' henv' hne hfull'
    · intro s' hdone
      refine Done.trans ?_ hdone
      exact Kept.of_same (List.suffix_cons _ _) rfl rfl
  · intro hfull
    refine ⟨halways, Kept.refl s, ?_⟩
    intro hsafe
    obtain ⟨htracked, harmed, hdraining⟩ := hready hsafe
    refine ⟨htracked, harmed, ?_⟩
    intro env' henv' hfull'
    by_cases heq : env' = env
    · rw [heq] at hfull'
      exact absurd hfull' hfull
    · exact hdraining env' henv' heq hfull'

theorem recvPending_spec {env : SCPEnvelope} (halways : Always s)
    (hready : Safe s.log → Tracked s ∧ Armed s ∧ DrainingBut A env s) :
    wp (recvPending world call env) (fun _ s' => Done A s s') (fun _ s' => Died s') s := by
  rw [recvPending, wp_bind, wp_get, wp_ite]
  constructor
  · intro hmem
    exact releaseIfFetched_spec hcall halways hmem hready
  intro hmem
  rw [wp_runIf]
  constructor
  · intro hprocessed
    rw [wp_bind, wp_set, wp_bind]
    refine wp_mono (startFetch_spec (E := fun _ s' => Died s')) ?_ (fun _ _ h => h)
    intro b t hfetch
    obtain ⟨items, hfetch, hitems⟩ := hfetch
    have halways' : Always t := by
      constructor
      · rw [hfetch.log]
        exact halways.once
      · rw [hfetch.log]
        exact halways.cached
      · rw [hfetch.fetching]
        exact List.nodup_cons.mpr ⟨hmem, halways.nodup⟩
      · rw [hfetch.fetching, hfetch.processed]
        intro e he
        rcases List.mem_cons.mp he with rfl | he
        · exact hprocessed
        · exact halways.disjoint e he
      · rw [hfetch.log, hfetch.processed]
        exact halways.processed
    have hkept : Kept s t := by
      refine ⟨⟨[], hfetch.log.symm⟩, ?_, ?_⟩
      · intro i hsome
        obtain ⟨tr, htr⟩ := Option.isSome_iff_exists.mp hsome
        obtain ⟨tr', htr', -⟩ := hfetch.waiting i tr htr
        rw [htr']
        rfl
      · intro _ i _ hcached
        rw [hfetch.caches]
        exact hcached
    cases b with
    | true =>
      have henv : env ∈ t.mFetchingEnvelopes := by
        rw [hfetch.fetching]
        exact List.mem_cons_self
      refine wp_mono (releaseIfFetched_spec hcall (A := A) halways' henv ?_) ?_ (fun _ _ h => h)
      · intro hsafe
        rw [hfetch.log] at hsafe
        obtain ⟨htracked, harmed, hdraining⟩ := hready hsafe
        exact hfetch.ready (hitems rfl) htracked harmed hdraining
      · intro _ s' hdone
        exact Done.trans hkept hdone
    | false =>
      refine ⟨halways'.of_sublist (Or.inr ⟨_, id, rfl⟩) (List.Sublist.refl _) rfl, ?_, ?_⟩
      · exact hkept.trans (Kept.of_same (List.suffix_cons _ _) rfl rfl)
      · intro hsafe
        exact absurd hsafe.harmless id
  · intro hprocessed
    refine ⟨halways, Kept.refl s, ?_⟩
    intro hsafe
    obtain ⟨htracked, harmed, hdraining⟩ := hready hsafe
    refine ⟨htracked, harmed, ?_⟩
    intro e he hfull
    refine hdraining e he ?_ hfull
    rintro rfl
    exact hmem he

theorem recvSCPEnvelope_spec {env : SCPEnvelope} (halways : Always s)
    (hready : Safe s.log → Tracked s ∧ Armed s ∧ DrainingBut A env s) :
    wp (recvSCPEnvelope world call env) (fun _ s' => Done A s s') (fun _ s' => Died s') s := by
  rw [recvSCPEnvelope, wp_bind, wp_get, wp_ite]
  constructor
  · intro _
    exact drop_spec halways hready
  intro _
  rw [wp_bind, wp_set, wp_ite]
  have halways' : Always { s with asked := s.asked + 1 } :=
    halways.of_sublist (Or.inl rfl) (List.Sublist.refl _) rfl
  have hkept : Kept s { s with asked := s.asked + 1 } := Kept.of_same List.suffix_rfl rfl rfl
  constructor
  · intro _
    refine wp_mono (recvPending_spec hcall (A := A) halways' hready) ?_ (fun _ _ h => h)
    intro _ s' hdone
    exact Done.trans hkept hdone
  · intro _
    refine wp_mono (drop_spec (A := A) halways' hready) ?_ (fun _ _ h => h)
    intro _ s' hdone
    exact Done.trans hkept hdone

theorem recv_spec {item : Item} (halways : Always s)
    (hready : Safe s.log → Good (item :: A) s ∧ s.caches.exists item = true) :
    wp (recv call item) (fun _ s' => Done A s s') (fun _ s' => Died s') s := by
  rw [recv, wp_bind, wp_get]
  cases htr : s.mTrackers item with
  | none =>
    refine ⟨halways, Kept.refl s, ?_⟩
    intro hsafe
    obtain ⟨hgood, -⟩ := hready hsafe
    refine { hgood with draining := ?_ }
    intro env henv hfull
    obtain ⟨i, hi, tr, htr', hmem⟩ := hgood.draining env henv hfull
    rcases List.mem_cons.mp hi with rfl | hi
    · rw [htr] at htr'
      cases htr'
    · exact ⟨i, hi, tr, htr', hmem⟩
  | some tracker =>
    have hkept : ∀ tr : Tracker, Kept s { s with
        mTrackers := Function.update s.mTrackers item (some tr), asked := s.asked + 1 } := by
      intro tr
      refine ⟨List.suffix_rfl, ?_, fun _ _ _ h => h⟩
      intro i hsome
      show (Function.update s.mTrackers item (some tr) i).isSome
      by_cases heq : i = item
      · rw [heq, Function.update_self]
        rfl
      · rw [Function.update_of_ne heq]
        exact hsome
    have halways' : ∀ tr : Option Tracker, Always { s with
        mTrackers := Function.update s.mTrackers item tr, asked := s.asked + 1 } := by
      intro tr
      exact halways.of_sublist (Or.inl rfl) (List.Sublist.refl _) rfl
    cases hlast : tracker.mWaitingEnvelopes.getLast? with
    | none =>
      have hwaiting : tracker.mWaitingEnvelopes = [] := List.getLast?_eq_none_iff.mp hlast
      dsimp only
      rw [hlast]
      dsimp only
      rw [Pending.setTracker, wp_modify]
      refine ⟨halways' _, hkept _, ?_⟩
      intro hsafe
      obtain ⟨hgood, hcached⟩ := hready hsafe
      obtain ⟨htracked, harmed⟩ := hgood.setTracker (some { tracker with armed := false }) hcached
      refine ⟨htracked, harmed, ?_⟩
      intro env henv hfull
      obtain ⟨i, hi, tr, htr', hmem⟩ := hgood.draining env henv hfull
      have hne : i ≠ item := by
        rintro rfl
        rw [htr] at htr'
        cases htr'
        rw [hwaiting] at hmem
        cases hmem
      refine ⟨i, (List.mem_cons.mp hi).resolve_left hne, tr, ?_, hmem⟩
      exact (Function.update_of_ne hne _ _).trans htr'
    | some env =>
      dsimp only
      rw [hlast]
      dsimp only
      rw [wp_bind, Pending.setTracker, wp_modify, wp_bind]
      refine hcall.wp_call (A := item :: A) (halways' _) ?_ ?_
      · intro hsafe
        obtain ⟨hgood, hcached⟩ := hready hsafe
        obtain ⟨htracked, harmed⟩ := hgood.setTracker (some { tracker with
          mWaitingEnvelopes := tracker.mWaitingEnvelopes.dropLast }) hcached
        refine ⟨htracked, harmed, ?_⟩
        intro e he hne hfull
        obtain ⟨i, hi, tr, htr', hmem⟩ := hgood.draining e he hfull
        refine ⟨i, hi, ?_⟩
        by_cases heq : i = item
        · subst heq
          rw [htr] at htr'
          cases htr'
          refine ⟨_, Function.update_self i _ _, mem_dropLast_of_ne hmem ?_⟩
          rw [hlast]
          intro h
          exact hne (Option.some.inj h).symm
        · exact ⟨tr, (Function.update_of_ne heq _ _).trans htr', hmem⟩
      · intro t hdone
        refine hcall.wp_call (A := A) hdone.always ?_ ?_
        · intro hsafe
          obtain ⟨-, hcached⟩ := hready (hsafe.of_suffix hdone.kept.log)
          refine ⟨hdone.good hsafe, hdone.kept.cached hsafe item ?_ hcached⟩
          show (Function.update s.mTrackers item _ item).isSome
          rw [Function.update_self]
          rfl
        · intro u hdone'
          exact Done.trans ((hkept _).trans hdone.kept) hdone'

theorem recvItem_spec (item : Item) (halways : Always s) (hready : Safe s.log → Good A s) :
    wp (recvItem call item) (fun _ s' => Done A s s') (fun _ s' => Died s') s := by
  rw [recvItem, wp_bind, wp_modify]
  -- what is not the victim stays in the cache
  have hstays : Safe (s.evict (s.caches.put item).2) → ∀ i, s.caches.exists i = true →
      ((s.mTrackers i).isSome ∨ ∃ env ∈ s.mFetchingEnvelopes, i ∈ env.items) →
      (s.caches.put item).1.exists i = true := by
    intro hsafe i hcached hused
    refine Caches.exists_put (Or.inr hcached) ?_
    intro hvictim
    rw [hvictim] at hsafe
    exact State.not_safe_evict hused hsafe
  have hkept : Kept s { s with
      caches := (s.caches.put item).1, log := s.evict (s.caches.put item).2 } := by
    refine ⟨(s.logged_evict _).suffix, fun _ h => h, ?_⟩
    intro hsafe i hsome hcached
    exact hstays hsafe i hcached (Or.inl hsome)
  refine hcall.wp_call (A := A) ?_ ?_ ?_
  · exact halways.of_sublist (s.logged_evict _) (List.Sublist.refl _) rfl
  · intro hsafe
    have hgood := hready (hsafe.of_suffix hkept.log)
    refine ⟨⟨?_, ?_, ?_⟩, Caches.exists_put_self s.caches item⟩
    · intro env henv i hi
      rcases hgood.tracked env henv i hi with hcached | hwaits
      · exact Or.inl (hstays hsafe i hcached (Or.inr ⟨env, henv, hi⟩))
      · exact Or.inr hwaits
    · intro i tr htr
      rcases hgood.armed i tr htr with harm | hcached
      · exact Or.inl harm
      · refine Or.inr (hstays hsafe i hcached (Or.inl ?_))
        rw [htr]
        rfl
    · intro env henv hfull
      obtain ⟨hdecoded, hitems⟩ := (isFullyFetched_iff _ env).mp hfull
      by_cases hbefore : isFullyFetched s.caches env = some true
      · obtain ⟨i, hi, hwaits⟩ := hgood.draining env henv hbefore
        exact ⟨i, List.mem_cons_of_mem _ hi, hwaits⟩
      · -- the item has been the last one missing: the envelope waits for it
        rw [isFullyFetched_iff] at hbefore
        push Not at hbefore
        obtain ⟨i, hi, hmissing⟩ := hbefore hdecoded
        have heq : i = item := (Caches.exists_of_put (hitems i hi)).resolve_right hmissing
        obtain ⟨tr, htr, hmem, -⟩ := (hgood.tracked env henv i hi).resolve_left hmissing
        rw [heq] at htr
        exact ⟨item, List.mem_cons_self, tr, htr, hmem⟩
  · intro t hdone
    exact Done.trans hkept hdone

theorem processSCPQueue_spec (halways : Always s) (hready : Safe s.log → Good A s) :
    wp (processSCPQueue call) (fun _ s' => Done A s s') (fun _ s' => Died s') s := by
  rw [processSCPQueue, wp_bind, wp_get]
  cases s.mTrackingSCP with
  | none => exact hcall A _ s halways hready
  | some consensusIndex =>
    dsimp only
    rw [wp_bind, wp_runIf]
    constructor
    · intro _
      rw [eraseBelow, wp_modify]
      refine hcall.wp_call (A := A) ?_ ?_ ?_
      · exact halways.of_sublist (Or.inl rfl) List.filter_sublist rfl
      · intro hsafe
        exact (hready hsafe).shrink List.filter_sublist.subset (fun _ => Iff.rfl) rfl
      · intro t hdone
        refine Done.trans ?_ hdone
        exact Kept.of_same List.suffix_rfl rfl rfl
    · intro _
      exact hcall A _ s halways hready

theorem processSlots_spec (slots : List ℕ) (halways : Always s) (hready : Safe s.log → Good A s) :
    wp (processSlots call slots) (fun _ s' => Done A s s') (fun _ s' => Died s') s := by
  cases slots with
  | nil => exact ⟨halways, Kept.refl s, hready⟩
  | cons slot slots =>
    rw [processSlots, wp_bind]
    refine hcall.wp_call (A := A) halways hready ?_
    intro t hdone
    rw [wp_bind, wp_get, wp_runIf]
    constructor
    · intro _
      refine hcall.wp_call (A := A) hdone.always hdone.good ?_
      intro u hdone'
      exact Done.trans hdone.kept hdone'
    · intro _
      exact hdone

theorem processSCPQueueUpToIndex_spec (slotIndex : ℕ) (halways : Always s)
    (hready : Safe s.log → Good A s) :
    wp (processSCPQueueUpToIndex world call slotIndex) (fun _ s' => Done A s s')
      (fun _ s' => Died s') s := by
  rw [processSCPQueueUpToIndex, wp_bind]
  refine wp_mono (pop_spec (E := fun _ s' => Died s') slotIndex halways hready) ?_ (fun _ _ h => h)
  intro popped t hpop
  cases popped with
  | none => exact hpop
  | some env =>
    dsimp only
    rw [wp_bind, wp_get, wp_bind, wp_set, wp_bind]
    refine hcall.wp_call (A := A) ?_ ?_ ?_
    · exact hpop.always.of_sublist (Or.inl rfl) (List.Sublist.refl _) rfl
    · intro hsafe
      exact (hpop.good hsafe).shrink (List.Subset.refl _) (fun _ => Iff.rfl) rfl
    · intro u hdone
      refine hcall.wp_call (A := A) hdone.always hdone.good ?_
      intro v hdone'
      have hasked : Kept t { t with asked := t.asked + 1 } := Kept.of_same List.suffix_rfl rfl rfl
      exact Done.trans (hpop.kept.trans (hasked.trans hdone.kept)) hdone'

theorem perform_spec (r : Reaction) (halways : Always s) (hready : Safe s.log → Good A s) :
    wp (perform call r) (fun _ s' => Done A s s') (fun _ s' => Died s') s := by
  cases r with
  | recvTxSet hash => exact recvItem_spec hcall _ halways hready
  | recvSCPQuorumSet hash => exact recvItem_spec hcall _ halways hready
  | lookup item =>
    rw [perform, wp_modify]
    refine ⟨halways.of_sublist (Or.inl rfl) (List.Sublist.refl _) rfl, ?_, ?_⟩
    · refine ⟨List.suffix_rfl, fun _ h => h, ?_⟩
      intro _ i _ hcached
      exact (Caches.exists_use _ _ _).mpr hcached
    · intro hsafe
      exact (hready hsafe).shrink (List.Subset.refl _) (fun _ => Caches.exists_use _ _ _) rfl
  | slotClosed slotIndex => exact slotClosed_spec slotIndex halways hready
  | processSCPQueueUpToIndex slotIndex => exact hcall A _ s halways hready
  | processSCPQueue => exact hcall A _ s halways hready
  | setTracking mTrackingSCP currentLedgerSeq =>
    rw [perform, wp_modify]
    refine ⟨halways.of_sublist (Or.inl rfl) (List.Sublist.refl _) rfl,
      Kept.of_same List.suffix_rfl rfl rfl, ?_⟩
    intro hsafe
    exact (hready hsafe).shrink (List.Subset.refl _) (fun _ => Iff.rfl) rfl

theorem react_spec (reactions : List Reaction) (halways : Always s)
    (hready : Safe s.log → Good A s) :
    wp (react call reactions) (fun _ s' => Done A s s') (fun _ s' => Died s') s := by
  cases reactions with
  | nil => exact ⟨halways, Kept.refl s, hready⟩
  | cons r reactions =>
    rw [react, wp_bind]
    refine wp_mono (perform_spec hcall r halways hready) ?_ (fun _ _ h => h)
    intro _ t hdone
    refine hcall.wp_call (A := A) hdone.always hdone.good ?_
    intro u hdone'
    exact Done.trans hdone.kept hdone'

end Calls

/-! ## Runs keep the invariants -/

/-- The induction is on the depth of the stack. -/
theorem exec_spec (fuel : ℕ) : Spec (exec world fuel) := by
  induction fuel with
  | zero =>
    intro A c s halways hready
    exact ⟨halways, fun hsafe => (hready hsafe).tracked⟩
  | succ fuel ih =>
    intro A c s halways hready
    cases c with
    | recvSCPEnvelope env => exact recvSCPEnvelope_spec ih halways hready
    | recv item => exact recv_spec ih halways hready
    | processSCPQueue => exact processSCPQueue_spec ih halways hready
    | processSlots slots => exact processSlots_spec ih slots halways hready
    | processSCPQueueUpToIndex slotIndex =>
      exact processSCPQueueUpToIndex_spec ih slotIndex halways hready
    | react reactions => exact react_spec ih reactions halways hready

/-- What holds between two inputs. -/
structure Inv (s : State) : Prop where
  always : Always s
  good : Safe s.log → Good [] s

/-- A tracker goes on to another peer: its waiting list stays, and it is not disarmed. -/
theorem Good.map_tracker {item : Item} {f : Tracker → Tracker} (h : Good A s)
    (hwaiting : ∀ tr, (f tr).mWaitingEnvelopes = tr.mWaitingEnvelopes)
    (harmed : ∀ tr : Tracker, tr.armed = true → (f tr).armed = true) :
    Good A { s with
      mTrackers := Function.update s.mTrackers item ((s.mTrackers item).map f)
      asked := s.asked + 1 } := by
  have htracker : ∀ i tr, s.mTrackers i = some tr →
      ∃ tr', Function.update s.mTrackers item ((s.mTrackers item).map f) i = some tr' ∧
        tr'.mWaitingEnvelopes = tr.mWaitingEnvelopes ∧ (tr.armed = true → tr'.armed = true) := by
    intro i tr htr
    by_cases heq : i = item
    · subst heq
      rw [Function.update_self, htr]
      exact ⟨f tr, rfl, hwaiting tr, harmed tr⟩
    · rw [Function.update_of_ne heq]
      exact ⟨tr, htr, rfl, id⟩
  refine ⟨?_, ?_, ?_⟩
  · intro env henv i hi
    rcases h.tracked env henv i hi with hcached | ⟨tr, htr, hmem, harm⟩
    · exact Or.inl hcached
    · obtain ⟨tr', htr', hwait, harm'⟩ := htracker i tr htr
      rw [← hwait] at hmem
      exact Or.inr ⟨tr', htr', hmem, harm' harm⟩
  · intro i tr' htr'
    cases htr : s.mTrackers i with
    | none =>
      have hnone : Function.update s.mTrackers item ((s.mTrackers item).map f) i = none := by
        by_cases heq : i = item
        · rw [← heq, Function.update_self, htr]
          rfl
        · rw [Function.update_of_ne heq, htr]
      cases hnone.symm.trans htr'
    | some tr =>
      obtain ⟨tr'', htr'', -, harm'⟩ := htracker i tr htr
      cases htr''.symm.trans htr'
      exact (h.armed i tr htr).imp_left harm'
  · intro env henv hfull
    obtain ⟨i, hi, tr, htr, hmem⟩ := h.draining env henv hfull
    obtain ⟨tr', htr', hwait, -⟩ := htracker i tr htr
    rw [← hwait] at hmem
    exact ⟨i, hi, tr', htr', hmem⟩

theorem doesntHave_spec {E : Fault → State → Prop} (item : Item) (peer : Peer) (h : Inv s) :
    wp (doesntHave world item peer) (fun _ s' => Inv s') E s := by
  rw [doesntHave, wp_bind, wp_get, setTracker, wp_modify]
  refine ⟨h.always.of_sublist (Or.inl rfl) (List.Sublist.refl _) rfl, ?_⟩
  intro hsafe
  refine (h.good hsafe).map_tracker ?_ ?_
  · intro tr
    rw [Tracker.doesntHave]
    split_ifs
    · exact Tracker.tryNextPeer_waiting _ _
    · rfl
  · intro tr harm
    rw [Tracker.doesntHave]
    split_ifs
    · exact Tracker.tryNextPeer_armed _ _
    · exact harm

theorem timer_spec {E : Fault → State → Prop} (item : Item) (h : Inv s) :
    wp (timer world item) (fun _ s' => Inv s') E s := by
  rw [timer, wp_bind, wp_get, setTracker, wp_modify]
  refine ⟨h.always.of_sublist (Or.inl rfl) (List.Sublist.refl _) rfl, ?_⟩
  intro hsafe
  refine (h.good hsafe).map_tracker ?_ ?_
  · intro tr
    split_ifs
    · exact Tracker.tryNextPeer_waiting _ _
    · rfl
  · intro tr harm
    rw [if_pos harm]
    exact Tracker.tryNextPeer_armed _ _

theorem stopFetchingBelowInternal_spec {E : Fault → State → Prop} (kind : Kind) (slotIndex : ℕ)
    (h : Inv s) : wp (stopFetchingBelowInternal kind slotIndex) (fun _ s' => Inv s') E s := by
  rw [stopFetchingBelowInternal, wp_modify]
  by_cases hbelow : s.mFetchingEnvelopes.any (·.slotIndex < slotIndex) = true
  · rw [if_pos hbelow]
    refine ⟨h.always.of_sublist (Or.inr ⟨_, id, rfl⟩) (List.Sublist.refl _) rfl, ?_⟩
    intro hsafe
    exact absurd hsafe.harmless id
  · rw [if_neg hbelow]
    refine ⟨h.always.of_sublist (Or.inl rfl) (List.Sublist.refl _) rfl, ?_⟩
    intro hsafe
    have hgood := h.good hsafe
    have hslot : ∀ env ∈ s.mFetchingEnvelopes, slotIndex ≤ env.slotIndex := by
      simpa using hbelow
    refine ⟨?_, ?_, ?_⟩
    · intro env henv i hi
      rcases hgood.tracked env henv i hi with hcached | ⟨tr, htr, hmem, harm⟩
      · exact Or.inl hcached
      · right
        by_cases hkind : i.1 = kind
        · have hmem' : env ∈ tr.mWaitingEnvelopes.filter (slotIndex ≤ ·.slotIndex) :=
            List.mem_filter.mpr ⟨hmem, decide_eq_true (hslot env henv)⟩
          refine ⟨{ tr with mWaitingEnvelopes := _ }, ?_, hmem', harm⟩
          dsimp only
          rw [if_pos hkind, htr, Option.bind_some, Tracker.clearEnvelopesBelow]
          exact if_neg (List.ne_nil_of_mem hmem')
        · refine ⟨tr, ?_, hmem, harm⟩
          dsimp only
          rw [if_neg hkind, htr]
    · intro i tr' htr'
      dsimp only at htr'
      by_cases hkind : i.1 = kind
      · rw [if_pos hkind] at htr'
        obtain ⟨tr, htr, hclear⟩ := Option.bind_eq_some_iff.mp htr'
        rw [Tracker.clearEnvelopesBelow] at hclear
        split_ifs at hclear
        cases hclear
        exact hgood.armed i tr htr
      · rw [if_neg hkind] at htr'
        exact hgood.armed i tr' htr'
    · intro env henv hfull
      obtain ⟨i, hi, -⟩ := hgood.draining env henv hfull
      cases hi

theorem step_spec (fuel : ℕ) (input : Input) (h : Inv s) :
    wp (step world fuel input) (fun _ s' => Inv s') (fun _ s' => Died s') s := by
  cases input with
  | recvSCPEnvelope env =>
    refine (exec_spec fuel).wp_call (A := []) h.always ?_ ?_
    · intro hsafe
      have hgood := h.good hsafe
      exact ⟨hgood.tracked, hgood.armed, fun e he _ hfull => hgood.draining e he hfull⟩
    · intro s' hdone
      exact ⟨hdone.always, hdone.good⟩
  | peerDoesntHave item peer => exact doesntHave_spec item peer h
  | timer item => exact timer_spec item h
  | runPosted =>
    rw [step, runPosted, wp_bind, wp_get]
    cases hposted : s.posted with
    | nil => exact h
    | cons call posted =>
      dsimp only
      rw [wp_bind, wp_set]
      refine stopFetchingBelowInternal_spec _ _ ⟨?_, ?_⟩
      · exact h.always.of_sublist (Or.inl rfl) (List.Sublist.refl _) rfl
      · intro hsafe
        exact (h.good hsafe).shrink (List.Subset.refl _) (fun _ => Iff.rfl) rfl
  | react r =>
    refine wp_mono (perform_spec (exec_spec fuel) (A := []) r h.always h.good) ?_ (fun _ _ h => h)
    intro _ s' hdone
    exact ⟨hdone.always, hdone.good⟩

theorem Inv.init : Inv {} := by
  refine ⟨⟨trivial, ?_, List.nodup_nil, ?_, ?_⟩, ?_⟩
  · intro env caches hmem
    cases hmem
  · intro env hmem
    cases hmem
  · intro env hmem
    cases hmem
  · intro _
    refine ⟨?_, ?_, ?_⟩
    · intro env hmem
      cases hmem
    · intro item tr htr
      cases htr
    · intro env hmem
      cases hmem

/-! ## The theorem -/

variable (world) in
/-- In every run, an envelope is handed over at most once until its slot is forgotten, and only when
its items are cached. As long as only harmless things happen, an envelope being fetched waits with
an armed tracker for each item that is missing, and some item is missing. -/
theorem envelopes_released (fuel : ℕ) (inputs : List Input) :
    wp (runInputs (step world fuel) inputs)
      (fun _ s => OnceEach s.log ∧ HandedCached s.log ∧ (Safe s.log → Tracked s ∧ Released s))
      (fun _ s => OnceEach s.log ∧ HandedCached s.log ∧ (Safe s.log → Tracked s)) {} := by
  have hrun : wp (runInputs (step world fuel) inputs) (fun _ s => Inv s) (fun _ s => Died s) {} :=
    wp_runInputs Inv.init fun _ input _ _ _ _ h => step_spec fuel input h
  refine wp_mono hrun ?_ ?_
  · intro _ s h
    refine ⟨h.always.once, h.always.cached, ?_⟩
    intro hsafe
    refine ⟨(h.good hsafe).tracked, ?_⟩
    intro env henv hfull
    obtain ⟨item, hitem, -⟩ := (h.good hsafe).draining env henv hfull
    cases hitem
  · intro _ s h
    exact ⟨h.always.once, h.always.cached, h.tracked⟩

/-! ## A run with an envelope that waits -/

/-- A node without peers, whose SCP does nothing. -/
def quiet : World where
  MANUAL_CLOSE := false
  localNodeID := 0
  isNodeInQuorum _ _ := true
  getRandomPeers _ := []
  getPeersKnows _ _ := []
  isAuthenticated _ _ := true
  receiveEnvelope _ _ := []

/-- The envelopes differ in their contents only. -/
def envelope (contents : ℕ) : SCPEnvelope :=
  { nodeID := 1, slotIndex := 1, quorumSetHash := 0, values := [some 0], contents }

/-- An envelope is released. -/
def release : List Input :=
  [.recvSCPEnvelope (envelope 0), .react (.recvSCPQuorumSet 0), .react (.recvTxSet 0)]

/-- An envelope with another transaction set. -/
def waiting : SCPEnvelope := { envelope 1 with values := [some 1] }

/-- The first envelope is released, the second one waits. -/
def whileWaiting : State :=
  match runInputs (step quiet 20) (release ++ [.recvSCPEnvelope waiting]) {} with
  | .ok _ s => s
  | .error _ s => s

theorem envelopes_released_waiting :
    runInputs (step quiet 20) (release ++ [.recvSCPEnvelope waiting]) {} = .ok () whileWaiting ∧
      whileWaiting.mFetchingEnvelopes = [waiting] ∧ handedSince whileWaiting.log = [envelope 0] ∧
      Safe whileWaiting.log ∧ Tracked whileWaiting ∧ Released whileWaiting := by
  have hrun : runInputs (step quiet 20) (release ++ [.recvSCPEnvelope waiting]) {} =
      .ok () whileWaiting := by cbv
  have hlog : ∃ caches, whileWaiting.log = [.handed (envelope 0) caches] := by
    refine ⟨{ mQsetCache := [0], mTxSetCache := [0] }, ?_⟩
    cbv
  have hsafe : Safe whileWaiting.log := by
    obtain ⟨caches, hlog⟩ := hlog
    intro e he
    rw [hlog, List.mem_singleton] at he
    rw [he]
    trivial
  exact ⟨hrun, by cbv, by cbv, hsafe, (of_wp_ok (envelopes_released quiet 20 _) hrun).2.2 hsafe⟩

/-! ## A run that evicts an item with a tracker -/

/-- After `release`, `n` transaction sets arrive that nobody asked for. -/
def flood (n : ℕ) : List Input := (List.range' 1 n).map fun hash => .react (.recvTxSet hash)

/-- After the flood the tracker of the first transaction set is still there. -/
structure Flooded (n : ℕ) (s : State) : Prop where
  tracker : s.mTrackers (.txSet, 0) = some { mNumListRebuild := 1 }
  others : ∀ k, s.mTrackers (.txSet, k + 1) = none
  caches : s.caches =
    { mQsetCache := [0], mTxSetCache := (List.range (n + 1)).reverse.take CACHE_SIZE }
  fetching : s.mFetchingEnvelopes = []
  processed : s.mProcessedEnvelopes = [envelope 0]
  tracking : s.mTrackingSCP = none
  ledger : s.currentLedgerSeq = 0

/-- The state after `release`. -/
def released : State :=
  match runInputs (step quiet 20) release {} with
  | .ok _ s => s
  | .error _ s => s

theorem released_flooded :
    runInputs (step quiet 20) release {} = .ok () released ∧ Flooded 0 released := by
  have htake : (List.range (0 + 1)).reverse.take CACHE_SIZE = [0] :=
    List.take_of_length_le (by decide)
  have hcaches : released.caches = { mQsetCache := [0], mTxSetCache := [0] } := by cbv
  refine ⟨by cbv, by cbv, ?_, ?_, by cbv, by cbv, by cbv, by cbv⟩
  · intro n
    cbv
  · rw [hcaches, htake]

/-- A new item is put in front of the others, of which `CACHE_SIZE` stay. -/
theorem Caches.put_take {caches : Caches} {kind : Kind} {hash : Hash} {l : List Hash}
    (hl : caches.get kind = l.take CACHE_SIZE) (hnew : hash ∉ l) :
    (caches.put (kind, hash)).1 = caches.set ((hash :: l).take CACHE_SIZE) kind := by
  have herase : (l.take CACHE_SIZE).erase hash = l.take CACHE_SIZE :=
    List.erase_of_not_mem fun h => hnew (List.mem_of_mem_take h)
  have hsize : CACHE_SIZE = (CACHE_SIZE - 1) + 1 := by decide
  rw [Caches.put]
  dsimp only
  rw [hl, herase]
  by_cases hlen : CACHE_SIZE ≤ l.length
  · have htake : (l.take CACHE_SIZE).length = CACHE_SIZE := by
      rw [List.length_take, min_eq_left hlen]
    rw [if_pos (by rw [List.length_cons, htake]; exact Nat.lt_succ_self _)]
    rw [List.dropLast_eq_take, List.length_cons, htake, Nat.add_sub_cancel, hsize,
      List.take_succ_cons, List.take_succ_cons, List.take_take, min_eq_left (Nat.le_succ _)]
  · have htake : l.take CACHE_SIZE = l := List.take_of_length_le (by omega)
    rw [htake, if_neg (by rw [List.length_cons]; omega)]
    rw [List.take_of_length_le (by rw [List.length_cons]; omega)]

/-- A transaction set that nobody asked for is cached. -/
theorem recvTxSet_flooded {n : ℕ} (h : Flooded n s) :
    wp (step quiet 20 (.react (.recvTxSet (n + 1)))) (fun _ s => Flooded (n + 1) s)
      (fun _ _ => False) s := by
  have hput : (s.caches.put (.txSet, n + 1)).1 =
      { mQsetCache := [0], mTxSetCache := (List.range (n + 2)).reverse.take CACHE_SIZE } := by
    rw [h.caches, Caches.put_take (l := (List.range (n + 1)).reverse) rfl (by simp)]
    rw [List.range_succ (n := n + 1), List.reverse_append]
    rfl
  rw [step, perform, recvItem, wp_bind, wp_modify, exec, recv, wp_bind, wp_get]
  dsimp only
  rw [h.others n]
  exact ⟨h.tracker, h.others, hput, h.fetching, h.processed, h.tracking, h.ledger⟩

theorem flood_flooded (n : ℕ) (h : Flooded 0 s) :
    wp (runInputs (step quiet 20) (flood n)) (fun _ s => Flooded n s) (fun _ _ => False) s := by
  induction n with
  | zero => exact h
  | succ n ih =>
    rw [flood, List.range'_concat, List.map_append, wp_runInputs_append]
    refine wp_mono ih ?_ (fun _ _ h => h)
    intro _ t ht
    rw [List.map_singleton, runInputs, wp_bind, Nat.one_mul, Nat.add_comm 1 n]
    exact recvTxSet_flooded ht

theorem Flooded.evicted {n : ℕ} (h : Flooded n s) (hn : n = CACHE_SIZE) :
    s.caches.exists (.txSet, 0) = false := by
  have hrange : (List.range (n + 1)).reverse.take n = ((List.range n).map Nat.succ).reverse := by
    rw [List.range_succ_eq_map, List.reverse_cons]
    exact List.take_left' (by simp)
  refine Bool.eq_false_iff.mpr ?_
  intro hcached
  rw [h.caches, ← hn, hrange, Caches.exists_iff] at hcached
  obtain ⟨k, -, hk⟩ := List.mem_map.mp (List.mem_reverse.mp hcached)
  cases hk

/-- The envelope refers to the transaction set that has been evicted: nobody is asked for it. -/
theorem recvSCPEnvelope_flooded {n : ℕ} (h : Flooded n s) (hn : n = CACHE_SIZE) :
    wp (step quiet 20 (.recvSCPEnvelope (envelope 1)))
      (fun _ t => envelope 1 ∈ t.mFetchingEnvelopes ∧ t.caches.exists (.txSet, 0) = false ∧
        t.mTrackers (.txSet, 0) = some { mWaitingEnvelopes := [envelope 1], mNumListRebuild := 1 })
      (fun _ _ => False) s := by
  have hevicted := h.evicted hn
  have hcached : s.caches.exists (.qSet, 0) = true := by
    rw [h.caches]
    rfl
  have hmissing : isFullyFetched s.caches (envelope 1) ≠ some true := by
    simp [isFullyFetched, envelope, hcached, isFullyFetchedValues, hevicted]
  have hwindow : ¬ (quiet.MANUAL_CLOSE = true ∨ (envelope 1).nodeID = quiet.localNodeID ∨
      Option.elim none (2 ^ 32 - 1) (· + 1 + LEDGER_VALIDITY_BRACKET) < (envelope 1).slotIndex ∨
      (envelope 1).slotIndex <
        if MAX_SLOTS_TO_REMEMBER < 0 then 0 - MAX_SLOTS_TO_REMEMBER else 0) := by decide
  have hquorum : quiet.isNodeInQuorum s.asked (envelope 1).nodeID = true := rfl
  have hfetching : envelope 1 ∉ s.mFetchingEnvelopes := by
    rw [h.fetching]
    exact List.not_mem_nil
  have hprocessed : envelope 1 ∉ s.mProcessedEnvelopes := by
    rw [h.processed]
    decide
  rw [step, exec, recvSCPEnvelope, wp_bind, wp_get]
  dsimp only
  rw [h.ledger, h.tracking, if_neg hwindow, wp_bind, wp_set, if_pos hquorum, recvPending, wp_bind,
    wp_get, if_neg hfetching, runIf, if_pos hprocessed, wp_bind, wp_set]
  have hqSet : (envelope 1).quorumSetHash = 0 := rfl
  have hvalues : (envelope 1).values = [some 0] := rfl
  simp [startFetch, startFetchValues, runIf, hqSet, hvalues, hcached, hevicted, fetch, h.tracker,
    setTracker, releaseIfFetched, hmissing, Tracker.listen]

/-- The tracker of the item is there, with no timer pending and no peer asked. -/
theorem flood_never_asked {n : ℕ} (h : Flooded 0 s) (hn : n = CACHE_SIZE) : ∃ t,
    runInputs (step quiet 20) (flood n ++ [.recvSCPEnvelope (envelope 1)]) s = .ok () t ∧
    ∃ env ∈ t.mFetchingEnvelopes, ∃ item ∈ env.items, t.caches.exists item = false ∧
      ∀ tr, t.mTrackers item = some tr → tr.armed = false ∧ tr.mLastAskedPeer = none := by
  have hrun : wp (runInputs (step quiet 20) (flood n ++ [.recvSCPEnvelope (envelope 1)]))
      (fun _ t => envelope 1 ∈ t.mFetchingEnvelopes ∧ t.caches.exists (.txSet, 0) = false ∧
        t.mTrackers (.txSet, 0) = some { mWaitingEnvelopes := [envelope 1], mNumListRebuild := 1 })
      (fun _ _ => False) s := by
    rw [wp_runInputs_append]
    refine wp_mono (flood_flooded n h) ?_ (fun _ _ h => h)
    intro _ t ht
    rw [runInputs, wp_bind]
    exact recvSCPEnvelope_flooded ht hn
  obtain ⟨_, t, hrun, henv, hmissing, htracker⟩ := exists_of_wp hrun
  refine ⟨t, hrun, envelope 1, henv, (.txSet, 0), by decide, hmissing, ?_⟩
  intro tr htr
  rw [htracker] at htr
  cases htr
  exact ⟨rfl, rfl⟩

theorem never_asked : ∃ s,
    runInputs (step quiet 20) (release ++ (flood CACHE_SIZE ++ [.recvSCPEnvelope (envelope 1)]))
      {} = .ok () s ∧
    ∃ env ∈ s.mFetchingEnvelopes, ∃ item ∈ env.items, s.caches.exists item = false ∧
      ∀ tr, s.mTrackers item = some tr → tr.armed = false ∧ tr.mLastAskedPeer = none := by
  obtain ⟨hrelease, hflooded⟩ := released_flooded
  obtain ⟨t, hflood, h⟩ := flood_never_asked hflooded rfl
  refine ⟨t, ?_, h⟩
  rw [runInputs_append_of_ok _ hrelease]
  exact hflood

end SmartCore.Herder.Pending
