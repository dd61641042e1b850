import SmartCore.Ledger.Leaving
import SmartCore.Transactions.Custody
import SmartCore.Transactions.Programs

/-!
# Transactions are applied as a whole, or not at all
-/

namespace SmartCore.Transactions

open SmartCore.Ledger

variable {α β : Type} {c : Custody} {m : Mode} {d : ℕ} {base : Database} {scopes : List Scope}
  {s s' t : LedgerState}

/-! ## Programs keep the cache in order -/

/-- The headers that the deltas up to `d` were opened over are the same. -/
def SamePrevious (d : ℕ) (s s' : LedgerState) : Prop :=
  ∀ j ≤ d, (s'.deltas j).mPreviousHeaderValue = (s.deltas j).mPreviousHeaderValue

theorem SamePrevious.refl (d : ℕ) (s : LedgerState) : SamePrevious d s s := fun _ _ => rfl

theorem SamePrevious.trans (h : SamePrevious d s t) (h' : SamePrevious d t s') :
    SamePrevious d s s' := fun j hj => (h' j hj).trans (h j hj)

theorem SamePrevious.of_delta {e : ℕ} (h : ∀ j ≠ e, s'.deltas j = s.deltas j)
    (he : (s'.deltas e).mPreviousHeaderValue = (s.deltas e).mPreviousHeaderValue) :
    SamePrevious d s s' := by
  intro j _
  by_cases hj : j = e
  · rw [hj, he]
  · rw [h j hj]

namespace Mode

/-- What holds before and after code. -/
def Runs (m : Mode) (base : Database) (scopes : List Scope) (s : LedgerState) : Prop :=
  match m with
  | inside d => Inside scopes d s
  | leaving d => Leaving base scopes d s

/-- What holds where it stops. -/
def Stops (m : Mode) (base : Database) (scopes : List Scope) (e : Exit) (s : LedgerState) : Prop :=
  match m with
  | inside d => Inside scopes d s ∨ (∀ r, e ≠ .opFailed r) ∧ Faulted scopes d s
  | leaving d => LeftOver base d s

/-- What it does to the deltas. -/
structure Steps (m : Mode) (s s' : LedgerState) : Prop where
  outside :
    match m with
    | inside d => Outside d s s'
    | leaving d => Grows d s s'
  previous : SamePrevious m.delta s s'

theorem Steps.refl (m : Mode) (s : LedgerState) : m.Steps s s := by
  refine ⟨?_, .refl _ s⟩
  cases m with
  | inside d => exact .refl d s
  | leaving d => exact .refl d s

theorem Steps.trans (h : m.Steps s t) (h' : m.Steps t s') : m.Steps s s' := by
  refine ⟨?_, h.previous.trans h'.previous⟩
  cases m with
  | inside d => exact h.outside.trans h'.outside
  | leaving d => exact h.outside.trans h'.outside

theorem Runs.stops (h : m.Runs base scopes s) (e : Exit) : m.Stops base scopes e s := by
  cases m with
  | inside d => exact Or.inl h
  | leaving d => exact h.leftOver

end Mode

/-- Code that keeps the cache in order, when it is in custody. -/
def KeepsRuns (c : Custody) (m : Mode) (x : LedgerM α) : Prop :=
  ∀ base scopes s, InCustody c s → m.Runs base scopes s →
    wp x (fun _ s' => m.Runs base scopes s' ∧ m.Steps s s')
      (fun e s' => m.Stops base scopes e s' ∧ m.Steps s s') s

theorem KeepsRuns.bind {x : LedgerM α} {f : α → LedgerM β} {R : α → Prop} (hx : KeepsRuns c m x)
    (hR : KeepsCustody c x R) (hf : ∀ a, R a → KeepsRuns c m (f a)) : KeepsRuns c m (x >>= f) := by
  intro base scopes s hc h
  rw [wp_bind]
  refine wp_mono (wp_and (hx base scopes s hc h) (hR s hc)) (fun a t ht => ?_) fun _ _ hs => hs.1
  obtain ⟨⟨hruns, hsteps⟩, hkept, ha⟩ := ht
  exact wp_mono (hf a ha base scopes t hkept.custody hruns)
    (fun _ _ hs => ⟨hs.1, hsteps.trans hs.2⟩) fun _ _ hs => ⟨hs.1, hsteps.trans hs.2⟩

theorem KeepsRuns.pure (a : α) : KeepsRuns c m (Pure.pure a) :=
  fun _ _ s _ h => ⟨h, .refl m s⟩

theorem KeepsRuns.throw (e : Exit) : KeepsRuns c m (throwThe Exit e : LedgerM α) :=
  fun _ _ s _ h => ⟨h.stops e, .refl m s⟩

/-! ### Statements -/

/-- Neither rows nor the cache change, nor what deltas know of entries. -/
structure Still (d : ℕ) (s s' : LedgerState) : Prop where
  row : ∀ k, s'.db.select k = s.db.select k
  cache : s'.mEntryCache = s.mEntryCache
  deltas : ∀ j ≠ d, s'.deltas j = s.deltas j
  same : ∀ k, (s.deltas d).Same k (s'.deltas d)
  previous : (s'.deltas d).mPreviousHeaderValue = (s.deltas d).mPreviousHeaderValue
  wf : (s.deltas d).WellFormed → (s'.deltas d).WellFormed
  ledger : s'.mCurrentLedger = s.mCurrentLedger
  history : s'.txhistory = s.txhistory

theorem Still.of_deltas (hrow : ∀ k, s'.db.select k = s.db.select k)
    (hcache : s'.mEntryCache = s.mEntryCache) (hdeltas : s'.deltas = s.deltas)
    (hledger : s'.mCurrentLedger = s.mCurrentLedger) (hhistory : s'.txhistory = s.txhistory) :
    Still d s s' := by
  refine ⟨hrow, hcache, fun j _ => by rw [hdeltas], fun k => ?_, ?_, ?_, hledger, hhistory⟩
  · rw [hdeltas]
    exact .refl k _
  · rw [hdeltas]
  · rw [hdeltas]
    exact fun hwf => hwf

theorem Still.coherent (h : Still d s s') (hs : Coherent s) : Coherent s' := by
  intro k v hmem
  rw [h.row]
  rw [h.cache] at hmem
  exact hs k v hmem

theorem Still.tracks {base : Database} {lo : ℕ} (h : Still d s s') (hs : Tracks base lo d s) :
    Tracks base lo d s' := by
  refine hs.congr h.row (fun j hj hje => ?_) fun k j _ => ?_
  · by_cases hjd : j = d
    · subst hjd
      exact h.wf (hs.wf j hj hje)
    · rw [h.deltas j hjd]
      exact hs.wf j hj hje
  · by_cases hjd : j = d
    · subst hjd
      exact h.same k
    · rw [h.deltas j hjd]
      exact .refl k _

theorem Still.outside (h : Still d s s') : Outside d s s' :=
  ⟨fun j hj => h.deltas j (by omega), h.ledger, h.history⟩

theorem Still.runs (h : Still m.delta s s') (hs : m.Runs base scopes s) :
    m.Runs base scopes s' ∧ m.Steps s s' := by
  have hprevious : SamePrevious m.delta s s' := .of_delta h.deltas h.previous
  cases m with
  | inside d =>
    exact ⟨⟨h.coherent hs.coherent, fun c hc => ⟨(hs.tracks c hc).1, h.tracks (hs.tracks c hc).2⟩⟩,
      h.outside, hprevious⟩
  | leaving d =>
    refine ⟨⟨h.coherent hs.coherent, fun c hc => ⟨(hs.tracks c hc).1, h.tracks (hs.tracks c hc).2⟩,
      ?_⟩, .of_outside h.outside, hprevious⟩
    intro k v hmem hne
    rw [h.cache] at hmem
    rw [h.row] at hne
    obtain ⟨j, hj, hje, htouched⟩ := hs.cache k v hmem hne
    obtain rfl : j = d + 1 := by omega
    exact ⟨d + 1, le_rfl, le_rfl, (h.same k).touched.mpr htouched⟩

theorem keepsRuns_of_still {x : LedgerM α}
    (hx : ∀ s, wp x (fun _ s' => Still m.delta s s') (fun _ s' => Still m.delta s s') s) :
    KeepsRuns c m x := by
  intro base scopes s _ h
  refine wp_mono (hx s) (fun _ s' hs => hs.runs h) fun e s' hs => ?_
  obtain ⟨hruns, hsteps⟩ := hs.runs h
  exact ⟨hruns.stops e, hsteps⟩

theorem keepsRuns_of_loaded {x : LedgerM α} (hx : WpLoaded d x) : KeepsRuns c (.inside d) x := by
  intro base scopes s _ h
  have hprevious : ∀ s', Loaded d s s' → SamePrevious d s s' := fun s' hs =>
    .of_delta hs.delta hs.header.2
  refine wp_mono (hx s) (fun _ s' hs => ?_) fun e s' hs => ?_
  · obtain ⟨hin, hout⟩ := h.loaded hs
    exact ⟨hin, hout, hprevious s' hs⟩
  · obtain ⟨hin, hout⟩ := h.loaded hs.2
    exact ⟨Or.inl hin, hout, hprevious s' hs.2⟩

theorem keepsRuns_of_stored {kind : StoreKind} {e : ℕ} {k : LedgerKey} {x : LedgerM α}
    (he : m.Takes kind e k) (hx : ∀ s, WpStored kind e k s x) : KeepsRuns c m x := by
  intro base scopes s _ h
  have hprevious : wp x (fun _ s' => SamePrevious m.delta s s')
      (fun _ s' => SamePrevious m.delta s s') s := by
    refine wp_mono (hx s) (fun _ s' hs => .of_delta hs.delta hs.header.2) fun e s' hs => ?_
    rcases hs.2 with hs | hs
    · exact .of_delta hs.delta hs.header.2
    · intro j _
      rw [hs.deltas]
  cases m with
  | inside d =>
    obtain rfl : e = d := he
    exact wp_mono (wp_and (keepsCache_of_stored hx scopes s h) hprevious)
      (fun _ _ hs => ⟨hs.1.1, hs.1.2, hs.2⟩) fun _ _ hs => ⟨hs.1.1, hs.1.2, hs.2⟩
  | leaving d =>
    exact wp_mono (wp_and (keepsLeaving_of_stored hx he base scopes s h) hprevious)
      (fun _ _ hs => ⟨hs.1.1, hs.1.2, hs.2⟩) fun _ _ hs => ⟨hs.1.1, hs.1.2, hs.2⟩

/-! ### Scopes -/

theorem SamePrevious.opened (h : SamePrevious (d + 1) (withDelta d s) t) : SamePrevious d s t := by
  intro j hj
  rw [h j (by omega)]
  exact congrArg _ (Function.update_of_ne (by omega) _ _)

/-- A scope is left: of the delta around it only the current header can be another. -/
theorem wp_nested_previous {x : LedgerM α}
    (hx : wp x (fun _ t => SamePrevious (d + 1) (withDelta d s) t)
      (fun _ t => SamePrevious (d + 1) (withDelta d s) t) (withDelta d s)) :
    wp (nested d x) (fun _ s' => SamePrevious d s s') (fun _ s' => SamePrevious d s s') s := by
  simp only [nested, openDelta, rollback, commit, wp_bind, wp_modify, wp_tryCatch, wp_throw,
    wp_pure, wp_get, wp_ite, wp_updateDelta]
  refine wp_mono hx (fun a t ht => ?_) fun e t ht => ht.opened
  refine ⟨fun _ => ht.opened, fun _ => ⟨fun δ hδ => ht.opened.trans (.of_delta
    (fun j hj => Function.update_of_ne hj _ _) ?_), fun _ => ht.opened⟩⟩
  obtain ⟨δ₀, hmerge, rfl⟩ := Option.map_eq_some_iff.mp hδ
  simp only [Function.update_self]
  exact (LedgerDelta.mergeEntries_header hmerge).2

theorem InCustody.opened (h : InCustody c s) : InCustody c (withDelta d s) :=
  h.of_accounts rfl (fun _ hp => hp) rfl

/-- Before anything is done, there is nothing to undo. -/
theorem inside_checked (h : Inside scopes d s) :
    Inside scopes d (rolledBack (d + 1) (withDelta d s)) :=
  h.rolledBack h.openedScope.faulted (.refl _ _)

theorem KeepsRuns.guarded {p : LedgerHeader → Prop} [DecidablePred p] {r : OperationResultTr}
    {x : LedgerHeader → LedgerM α} (hx : ∀ header, KeepsRuns c (.inside (d + 1)) (x header))
    (hfail : ∀ header, Unfailing (x header)) :
    KeepsRuns c (.inside d) (nested d (do
      let header ← getHeader (d + 1)
      failIf (p header) r
      x header)) := by
  intro base scopes s hc h
  have hbody : ∀ header,
      wp (x header) (fun _ t => (Inside scopes (d + 1) t ∧ Outside (d + 1) (withDelta d s) t) ∧
          SamePrevious (d + 1) (withDelta d s) t)
        (fun e t => ((∀ r, e ≠ .opFailed r) ∧ Faulted scopes (d + 1) t ∧
          Outside (d + 1) (withDelta d s) t) ∧ SamePrevious (d + 1) (withDelta d s) t)
        (withDelta d s) := by
    intro header
    refine wp_mono (wp_and (hx header base scopes _ hc.opened h.opened) (hfail header _))
      (fun _ t ht => ⟨⟨ht.1.1, ht.1.2.outside⟩, ht.1.2.previous⟩) fun e t ht => ?_
    exact ⟨⟨ht.2, ht.1.1.elim Inside.faulted And.right, ht.1.2.outside⟩, ht.1.2.previous⟩
  have hprevious : wp (nested d (do
      let header ← getHeader (d + 1)
      failIf (p header) r
      x header)) (fun _ s' => SamePrevious d s s') (fun _ s' => SamePrevious d s s') s := by
    refine wp_nested_previous ?_
    simp only [getHeader, failIf, fail, wp_bind, wp_get, wp_pure, wp_ite, wp_throw]
    exact ⟨fun _ => .refl _ _, fun _ => wp_mono (hbody _) (fun _ _ h => h.2) fun _ _ h => h.2⟩
  refine wp_mono (wp_and (?_ : wp _ (fun _ s' => Inside scopes d s' ∧ Outside d s s')
    (fun e s' => (Inside scopes d s' ∨ (∀ r, e ≠ Exit.opFailed r) ∧ Faulted scopes d s') ∧
      Outside d s s') s) hprevious) (fun _ _ hs => ⟨hs.1.1, hs.1.2, hs.2⟩)
      fun _ _ hs => ⟨hs.1.1, hs.1.2, hs.2⟩
  simp only [nested, openDelta, rollback, getHeader, failIf, fail, wp_bind, wp_modify, wp_tryCatch,
    wp_throw, wp_pure, wp_get, wp_ite]
  refine ⟨fun _ => ⟨Or.inl (inside_checked h), ?_⟩, fun _ => ?_⟩
  · have hout := (Outside.refl (d + 1) (withDelta d s)).opened
    exact ⟨hout.deltas, hout.ledger, hout.history⟩
  · refine wp_mono (hbody _) (fun a t ht => ?_) fun e t ht => ?_
    · refine wp_mono (wp_commit ht.1.1 fun c hc => (h.tracks c hc).1)
        (fun _ s' hs' => ⟨hs'.1, ht.1.2.opened.trans hs'.2⟩) fun e s' hs' => ?_
      obtain ⟨rfl, he⟩ := hs'
      obtain ⟨⟨hin, hout⟩, -⟩ := ht
      refine ⟨Or.inr ⟨fun r => ?_, hin.faulted.rolledBack⟩, hout.opened.deltas,
        hout.opened.ledger, hout.opened.history⟩
      rcases he with rfl | ⟨rfl, -⟩ <;> simp
    · obtain ⟨⟨hne, hfault, hout⟩, -⟩ := ht
      exact ⟨Or.inr ⟨hne, hfault.rolledBack⟩, hout.opened.deltas, hout.opened.ledger,
        hout.opened.history⟩

theorem KeepsRuns.scope {x : LedgerM α} {f : α → LedgerM β} {R : α → Prop}
    (hx : KeepsRuns c (.inside (d + 1)) x) (hR : KeepsCustody c x R)
    (hf : ∀ a, R a → KeepsRuns c (.leaving d) (f a)) :
    KeepsRuns c (.inside d) (nested d (sqlTransaction (x >>= f))) := by
  intro base scopes s hc h
  have hbody : wp (x >>= f)
      (fun _ t => (Leaving s.db scopes d t ∧ Grows d s t) ∧
        SamePrevious (d + 1) (withDelta d s) t)
      (fun _ t => (LeftOver s.db d t ∧ Grows d s t) ∧ SamePrevious (d + 1) (withDelta d s) t)
      (withDelta d s) := by
    rw [wp_bind]
    refine wp_mono (wp_and (hx base _ _ hc.opened h.openedScope) (hR _ hc.opened))
      (fun a t ht => ?_) fun e t ht => ?_
    · obtain ⟨⟨hin, hsteps⟩, hkept, ha⟩ := ht
      have hg : Grows d s t := .opened hsteps.outside
      exact wp_mono (hf a ha s.db scopes t hkept.custody (h.leaving hin))
        (fun _ u hu => ⟨⟨hu.1, hg.trans hu.2.outside⟩, hsteps.previous.trans hu.2.previous⟩)
        fun _ u hu => ⟨⟨hu.1, hg.trans hu.2.outside⟩, hsteps.previous.trans hu.2.previous⟩
    · have hfault : Faulted (⟨s.db, d + 1⟩ :: scopes) (d + 1) t :=
        ht.1.1.elim Inside.faulted And.right
      exact ⟨⟨hfault.leftOver, .opened ht.1.2.outside⟩, ht.1.2.previous⟩
  have hprevious : wp (nested d (sqlTransaction (x >>= f)))
      (fun _ s' => SamePrevious d s s') (fun _ s' => SamePrevious d s s') s := by
    refine wp_nested_previous ?_
    rw [wp_sqlTransaction]
    exact wp_mono hbody (fun _ _ h => h.2) fun _ _ h => h.2
  have hscope := wp_leave h (wp_mono hbody (fun _ _ h => h.1) fun _ _ h => h.1)
  exact wp_mono (wp_and hscope hprevious) (fun _ _ hs => ⟨hs.1.1, hs.1.2, hs.2⟩)
    fun _ _ hs => ⟨hs.1.1, hs.1.2, hs.2⟩

/-- **Every program keeps the cache in order.** -/
theorem Program.keepsRuns {x : LedgerM α} {R : α → Prop} (h : Program c m x R) :
    KeepsRuns c m x := by
  induction h with
  | pure _ => exact .pure _
  | bind hx _ ihx ihf => exact ihx.bind hx.keepsCustody ihf
  | mono _ _ ih => exact ih
  | throw e => exact .throw e
  | get => exact fun _ _ s _ h => ⟨h, .refl _ s⟩
  | note e => exact keepsRuns_of_still fun s => .of_deltas (fun _ => rfl) rfl rfl rfl rfl
  | setHeader header =>
    refine keepsRuns_of_still fun s => ?_
    simp only [Ledger.setHeader, wp_updateDelta]
    refine ⟨fun δ hδ => ?_, fun hδ => absurd hδ (Option.some_ne_none _)⟩
    obtain rfl := Option.some.inj hδ
    refine ⟨fun _ => rfl, rfl, fun j hj => Function.update_of_ne hj _ _, fun k => ?_, ?_,
      fun hwf => ?_, rfl, rfl⟩
    · simp only [Function.update_self]
      exact .refl k _
    · simp only [Function.update_self]
    · simp only [Function.update_self]
      exact ⟨hwf.new, hwf.mod, hwf.disjoint⟩
  | load hx _ => exact keepsRuns_of_loaded hx
  | loadAccount id => exact keepsRuns_of_loaded (AccountFrame.wpLoaded_loadAccount _ id)
  | storeChange _ he => exact keepsRuns_of_stored he fun _ => AccountFrame.wp_storeChange
  | storeAdd _ _ => exact keepsRuns_of_stored takes_inside fun _ => AccountFrame.wp_storeAdd
  | storeDelete _ => exact keepsRuns_of_stored takes_inside fun _ => AccountFrame.wp_storeDelete
  | storeReversed _ =>
    exact keepsRuns_of_stored takes_inside fun _ => ReversedPaymentFrame.wp_storeAdd
  | store he hx _ _ _ => exact keepsRuns_of_stored he hx
  | getSource =>
    intro _ _ s _ h
    simp only [getSourceAccount, wp_bind, wp_get, wp_deref]
    exact ⟨fun _ _ => ⟨h, .refl _ s⟩, fun _ => ⟨h.stops _, .refl _ s⟩⟩
  | setSource _ => exact keepsRuns_of_still fun s => .of_deltas (fun _ => rfl) rfl rfl rfl rfl
  | catchFailed hx _ hother ihx ihfail =>
    intro base scopes s hc h
    rw [wp_tryCatch]
    refine wp_mono (wp_and (ihx base scopes s hc h) (hx.keepsCustody s hc))
      (fun _ _ hs => hs.1) fun e t ht => ?_
    obtain ⟨⟨hstops, hsteps⟩, hkept⟩ := ht
    by_cases he : ∀ r, e ≠ .opFailed r
    · rw [hother e he]
      exact ⟨hstops, hsteps⟩
    · obtain ⟨r, he⟩ := not_forall.mp he
      obtain rfl := not_not.mp he
      have hin : Inside scopes _ t := hstops.resolve_right fun hne => hne.1 r rfl
      exact wp_mono (ihfail r base scopes t hkept.custody hin)
        (fun _ _ hs => ⟨hs.1, hsteps.trans hs.2⟩) fun _ _ hs => ⟨hs.1, hsteps.trans hs.2⟩
  | guarded _ hfail ih => exact .guarded ih hfail
  | scope hx _ ihx ihf => exact .scope ihx hx.keepsCustody ihf

end SmartCore.Transactions
