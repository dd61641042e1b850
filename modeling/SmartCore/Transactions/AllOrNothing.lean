import SmartCore.Transactions.Atomicity
import SmartCore.Transactions.Ledgers

/-!
# All operations of a transaction, or none

The operations of a transaction run in a delta and in a transaction of the database. Where they do
not all succeed both are rolled back, and with them the cache. The meta is not: it is cleared after
an operation that failed, and kept after an exception and where a signature is left that no check
has used.

**Lemma (`wp_applyTransaction`).** In every ledger from genesis on, a transaction is applied as a
whole, with the changes of each operation in its meta, or leaves everything as it was; and then there
are changes in its meta exactly if the operations had come to the end or to an exception.
-/

namespace SmartCore.Transactions

open SmartCore.Ledger TransactionFrame OperationFrame LedgerManager

variable {α β : Type} {c : Custody} {m : Mode} {d : ℕ} {base : Database} {scopes : List Scope}
  {s s' t : LedgerState} {app : Application} {env : TransactionEnvelope} {op : Operation}
  {fee : Option OperationFee}

/-! ## Checks only load -/

/-- Only loads, and nothing is noted in the meta. -/
structure Checked (d : ℕ) (s s' : LedgerState) : Prop where
  loaded : Loaded d s s'
  tm : s'.tm = s.tm

theorem Checked.refl (s : LedgerState) : Checked d s s := ⟨.refl s, rfl⟩

theorem Checked.trans (h : Checked d s t) (h' : Checked d t s') : Checked d s s' :=
  ⟨h.loaded.trans h'.loaded, h'.tm.trans h.tm⟩

/-- Code that only loads, however it ends. -/
def OnlyLoads (d : ℕ) (x : LedgerM α) : Prop :=
  ∀ s, wp x (fun _ s' => Checked d s s') (fun _ s' => Checked d s s') s

namespace OnlyLoads

theorem pure (a : α) : OnlyLoads d (Pure.pure a) := fun s => .refl s

theorem throw (e : Exit) : OnlyLoads d (throwThe Exit e : LedgerM α) := fun s => .refl s

theorem get : OnlyLoads d (get : LedgerM LedgerState) := fun s => .refl s

theorem bind {x : LedgerM α} {f : α → LedgerM β} (hx : OnlyLoads d x)
    (hf : ∀ a, OnlyLoads d (f a)) : OnlyLoads d (x >>= f) := by
  intro s
  rw [wp_bind]
  exact wp_mono (hx s) (fun a t ht => wp_mono (hf a t) (fun _ _ h => ht.trans h)
    fun _ _ h => ht.trans h) fun _ _ h => h

theorem ite {p : Prop} [Decidable p] {x y : LedgerM α} (hx : OnlyLoads d x) (hy : OnlyLoads d y) :
    OnlyLoads d (if p then x else y) := by
  split_ifs
  · exact hx
  · exact hy

/-- What is in memory for a transaction is not loaded. -/
theorem memory {g : LedgerState → LedgerState} (hdb : ∀ s, (g s).db = s.db)
    (hcache : ∀ s, (g s).mEntryCache = s.mEntryCache) (hdeltas : ∀ s, (g s).deltas = s.deltas)
    (hledger : ∀ s, (g s).mCurrentLedger = s.mCurrentLedger)
    (hhistory : ∀ s, (g s).txhistory = s.txhistory) (htm : ∀ s, (g s).tm = s.tm) :
    OnlyLoads d (modify g) := by
  intro s
  refine ⟨⟨hdb s, fun k v hmem => Or.inl (hcache s ▸ hmem), fun i _ => by rw [hdeltas],
    fun k => ?_, ?_, fun hwf => ?_, hledger s, hhistory s⟩, htm s⟩
  · rw [hdeltas]
    exact .refl k _
  · rw [hdeltas]
    exact ⟨rfl, rfl⟩
  · rw [hdeltas]
    exact hwf

theorem loadFrame (id : AccountID) : OnlyLoads d (loadFrame (some d) id) := by
  have htm : ∀ s, wp (AccountFrame.loadAccount d id) (fun _ s' => s'.tm = s.tm)
      (fun _ s' => s'.tm = s.tm) s := by
    intro s
    have hrecord : ∀ (f : AccountFrame) t, t.tm = s.tm →
        wp (do
          recordEntry d f.mEntry
          return some f) (fun _ s' => s'.tm = s.tm) (fun _ s' => s'.tm = s.tm) t := by
      intro f t ht
      simp only [recordEntry, wp_bind, wp_updateDelta, wp_pure]
      exact ⟨fun _ _ => ht, fun _ => ht⟩
    simp only [AccountFrame.loadAccount, AccountFrame.loadAccountDb, getCachedEntry, wp_bind,
      wp_get]
    cases s.mEntryCache.lookup (.account id) with
    | some p =>
      simp only [wp_bind, wp_set, wp_pure]
      cases p.bind (AccountFrame.ofEntry · true) with
      | none => rfl
      | some f => exact hrecord f _ rfl
    | none =>
      simp only [wp_bind, wp_get, wp_pure]
      cases (s.db.selectAccount id).bind (AccountFrame.ofEntry · false) with
      | none =>
        simp only [putCachedEntry, wp_bind, wp_modify, wp_pure]
      | some f =>
        simp only [assertion, putCachedEntry, wp_bind, wp_require, wp_modify, wp_pure]
        exact ⟨fun _ => hrecord f _ rfl, fun _ => trivial⟩
  exact fun s => wp_mono (wp_and (AccountFrame.wpLoaded_loadAccount d id s) (htm s))
    (fun _ _ h => ⟨h.1, h.2⟩) fun _ _ h => ⟨h.1.2, h.2⟩

theorem loadAccount (id : AccountID) : OnlyLoads d (TransactionFrame.loadAccount (some d) id) := by
  refine get.bind fun u => ?_
  cases u.mSigningAccount with
  | none => exact loadFrame id
  | some a => exact ite (pure _) (loadFrame id)

theorem loadSigningAccount : OnlyLoads d (loadSigningAccount env (some d)) := by
  refine (loadAccount _).bind fun a => bind ?_ fun _ => pure _
  exact memory (fun _ => rfl) (fun _ => rfl) (fun _ => rfl) (fun _ => rfl) (fun _ => rfl)
    fun _ => rfl

theorem checkSignature (account : AccountEntry) (needed : ℤ) :
    OnlyLoads d (checkSignature app env account needed) := fun _ =>
  ⟨⟨rfl, fun _ _ h => Or.inl h, fun _ _ => rfl, fun k => .refl k _, ⟨rfl, rfl⟩, fun h => h, rfl,
    rfl⟩, rfl⟩

theorem resetSignatureTracker : OnlyLoads d (resetSignatureTracker env) :=
  memory (fun _ => rfl) (fun _ => rfl) (fun _ => rfl) (fun _ => rfl) (fun _ => rfl) fun _ => rfl

theorem failTx (p : Prop) [Decidable p] (r : TransactionResult) : OnlyLoads d (failTx p r) :=
  ite (throw _) (pure _)

theorem commonValid : OnlyLoads d (commonValid app env (some d) 0) := by
  refine get.bind fun header => (failTx _ _).bind fun _ => (failTx _ _).bind fun _ =>
    (failTx _ _).bind fun _ => (failTx _ _).bind fun _ => (failTx _ _).bind fun _ =>
    loadSigningAccount.bind fun o => ?_
  cases o with
  | none => exact throw _
  | some account =>
    have hbalance : OnlyLoads d account.getMinimumBalance := get.bind fun _ => pure _
    exact (failTx _ _).bind fun _ => (checkSignature _ _).bind fun _ => (failTx _ _).bind fun _ =>
      hbalance.bind fun _ => failTx _ _

theorem loadSource : OnlyLoads d (loadSource env (some d) op) := by
  refine (loadAccount _).bind fun o => ?_
  cases o with
  | none => cases op.sourceAccount <;> exact throw _
  | some source =>
    refine bind ?_ fun _ => pure _
    exact memory (fun _ => rfl) (fun _ => rfl) (fun _ => rfl) (fun _ => rfl) (fun _ => rfl)
      fun _ => rfl

theorem checkSource (source : AccountFrame) : OnlyLoads d (checkSource app env source op) := by
  have hused (used : List Signer) :
      OnlyLoads d (modify fun s : LedgerState => { s with mUsedSigners := used }) :=
    memory (fun _ => rfl) (fun _ => rfl) (fun _ => rfl) (fun _ => rfl) (fun _ => rfl) fun _ => rfl
  unfold OperationFrame.checkSource
  split
  · exact (hused _).bind fun _ => ite (throw _) (pure _)
  · exact (checkSignature _ _).bind fun r => (hused _).bind fun _ => ite (throw _) (pure _)

/-- What is left to do when an operation is done. -/
theorem sync (r : Bool × OperationResult) : OnlyLoads d (do
    syncSigningAccount env op
    modify fun s => { s with results := s.results ++ [r.2] }
    return r.1) := by
  have hsync : OnlyLoads d (syncSigningAccount env op) := memory
    (fun _ => rfl) (fun _ => rfl) (fun _ => rfl) (fun _ => rfl) (fun _ => rfl) fun _ => rfl
  have hresults : OnlyLoads d
      (modify fun s : LedgerState => { s with results := s.results ++ [r.2] }) := memory
    (fun _ => rfl) (fun _ => rfl) (fun _ => rfl) (fun _ => rfl) (fun _ => rfl) fun _ => rfl
  exact hsync.bind fun _ => hresults.bind fun _ => pure _

end OnlyLoads

/-! ## Operations -/

/-- What an operation does to the deltas around its own: nothing. The meta is noted after it. -/
structure Within (d : ℕ) (s s' : LedgerState) : Prop where
  steps : (Mode.inside d).Steps s s'
  tm : s'.tm = s.tm

theorem Within.trans (h : Within d s t) (h' : Within d t s') : Within d s s' :=
  ⟨h.steps.trans h'.steps, h'.tm.trans h.tm⟩

theorem Checked.within (h : Checked d s s') : Within d s s' :=
  ⟨⟨⟨fun j hj => h.loaded.delta j (by omega), h.loaded.ledger, h.loaded.history⟩,
    .of_delta h.loaded.delta h.loaded.header.2⟩, h.tm⟩

theorem Checked.inside (h : Checked d s s') (hs : Inside scopes d s) : Inside scopes d s' :=
  (hs.loaded h.loaded).1

/-- Code of a transaction that keeps the cache in order. -/
def KeepsOrder (c : Custody) (d : ℕ) (x : LedgerM α) : Prop :=
  ∀ scopes s, Contained c s → Inside scopes d s →
    wp x (fun _ t => Inside scopes d t ∧ (Mode.inside d).Steps s t)
      (fun _ t => Faulted scopes d t ∧ (Mode.inside d).Steps s t) s

namespace KeepsOrder

theorem pure (a : α) : KeepsOrder c d (Pure.pure a) := fun _ s _ h => ⟨h, .refl _ s⟩

theorem bind {x : LedgerM α} {f : α → LedgerM β} {R : α → Prop} (hx : KeepsOrder c d x)
    (hR : KeepsContained c x R) (hf : ∀ a, R a → KeepsOrder c d (f a)) :
    KeepsOrder c d (x >>= f) := by
  intro scopes s hc h
  rw [wp_bind]
  refine wp_mono (wp_and (hx scopes s hc h) (hR s hc)) (fun a t ht => ?_) fun _ _ he => he.1
  obtain ⟨⟨hin, hwithin⟩, hcontained, ha⟩ := ht
  exact wp_mono (hf a ha scopes t hcontained hin) (fun _ _ hu => ⟨hu.1, hwithin.trans hu.2⟩)
    fun _ _ hu => ⟨hu.1, hwithin.trans hu.2⟩

theorem of_onlyLoads {x : LedgerM α} (hx : OnlyLoads d x) : KeepsOrder c d x := fun _ s _ h =>
  wp_mono (hx s) (fun _ _ hs => ⟨hs.inside h, hs.within.steps⟩)
    fun _ _ hs => ⟨(hs.inside h).faulted, hs.within.steps⟩

/-- A delta, that is committed if the code returns. -/
theorem nested {x : LedgerM α} (hx : KeepsOrder c (d + 1) x) : KeepsOrder c d (nested d x) := by
  intro scopes s hc h
  have hopened : Contained c (withDelta d s) := hc.of_eq rfl (fun _ hp => hp) rfl rfl
  have hbody := hx scopes _ hopened h.opened
  have hprevious : wp (Ledger.nested d x) (fun _ s' => SamePrevious d s s')
      (fun _ s' => SamePrevious d s s') s :=
    wp_nested_previous (wp_mono hbody (fun _ _ ht => ht.2.previous) fun _ _ ht => ht.2.previous)
  have horder : wp (Ledger.nested d x) (fun _ s' => Inside scopes d s' ∧ Outside d s s')
      (fun _ s' => Faulted scopes d s' ∧ Outside d s s') s := by
    simp only [Ledger.nested, openDelta, rollback, wp_bind, wp_modify, wp_tryCatch, wp_throw,
      wp_pure]
    refine wp_mono hbody (fun a t ht => ?_) fun e t ht => ?_
    · obtain ⟨hin, hwithin⟩ := ht
      refine wp_mono (wp_commit hin fun c hc => (h.tracks c hc).1)
        (fun _ s' hs' => ⟨hs'.1, hwithin.outside.opened.trans hs'.2⟩) fun e s' hs' => ?_
      obtain ⟨rfl, -⟩ := hs'
      have hout : Outside d s s' := hwithin.outside.opened
      exact ⟨hin.faulted.rolledBack, hout.deltas, hout.ledger, hout.history⟩
    · have hout : Outside d s t := ht.2.outside.opened
      exact ⟨ht.1.rolledBack, hout.deltas, hout.ledger, hout.history⟩
  exact wp_mono (wp_and horder hprevious) (fun _ _ hs => ⟨hs.1.1, hs.1.2, hs.2⟩)
    fun _ _ hs => ⟨hs.1.1, hs.1.2, hs.2⟩

end KeepsOrder

/-- What a program does in a delta that others have written to. -/
theorem wp_program_inside {x : LedgerM β} {R : β → Prop} (hx : Program c (.inside d) x R)
    (hcustody : InCustody c t) (hin : Inside scopes d t) (hwithin : Within d s t) :
    wp x (fun _ u => Inside scopes d u ∧ Within d s u)
      (fun e u => (Mode.inside d).Stops s.db scopes e u ∧ Within d s u) t := by
  refine wp_mono (wp_and (hx.keepsRuns s.db scopes t hcustody hin) (hx.keepsCustody t hcustody))
    (fun _ u hu => ?_) fun e u hu => ?_
  · exact ⟨hu.1.1, hwithin.trans ⟨hu.1.2, hu.2.1.memory.tm⟩⟩
  · exact ⟨hu.1.1, hwithin.trans ⟨hu.1.2, hu.2.memory.tm⟩⟩

/-- An operation is checked after its source is loaded and checked. -/
theorem wp_checkValid_own {Q : LedgerState → Prop} {E : Exit → LedgerState → Prop}
    (hc : Contained c s) (hfault : ∀ e t, Checked d s t → E e t)
    (hown : ∀ t, Checked d s t → InCustody (c.of env op) t →
      wp (OperationFrame.doCheckValid app env op fee) (fun _ u => Q u) E t) :
    wp (OperationFrame.checkValid app env (some d) op fee) (fun _ u => Q u) E s := by
  simp only [OperationFrame.checkValid, wp_bind, Option.isNone_some, wp_runIf]
  refine wp_mono (wp_and (OnlyLoads.loadSource s) (wp_loadSource hc)) (fun source t ht => ?_)
    fun e t ht => hfault e t ht.1
  obtain ⟨hloaded, ht, hid, hsource⟩ := ht
  refine wp_mono (wp_and (OnlyLoads.checkSource (d := d) source t)
    (wp_checkSource ht hid hsource)) (fun _ u hu => ⟨nofun, fun _ => ?_⟩)
    fun e u hu => hfault e u (hloaded.trans hu.1)
  exact hown u (hloaded.trans hu.1) hu.2.2

theorem wp_checkValid_inside (fee : Option OperationFee) (hc : Contained c s)
    (h : Inside scopes d s) :
    wp (OperationFrame.checkValid app env (some d) op fee)
      (fun _ t => Inside scopes d t ∧ Within d s t)
      (fun e t => (Mode.inside d).Stops s.db scopes e t ∧ Within d s t) s := by
  refine wp_checkValid_own hc (fun _ t ht => ⟨Or.inl (ht.inside h), ht.within⟩) fun t ht hct => ?_
  exact wp_program_inside Program.doCheckValid hct (ht.inside h) ht.within

/-- **An operation is checked and applied.** If it fails, the cache is still in order. -/
theorem wp_checkThenApply (fee : Option OperationFee) (hc : Contained c s) (h : Inside scopes d s)
    (hadmits : Passes app env op → Admits (c.of env op) op) :
    wp (do
        OperationFrame.checkValid app env (some d) op fee
        OperationFrame.doApply app env d op fee)
      (fun _ t => Inside scopes d t ∧ Within d s t)
      (fun e t => (Mode.inside d).Stops s.db scopes e t ∧ Within d s t) s := by
  rw [wp_bind]
  refine wp_mono (wp_and (wp_checkValid_inside fee hc h) (wp_checkValid_contained hc))
    (fun _ t ht => ?_) fun _ _ ht => ht.1
  obtain ⟨⟨hin, hwithin⟩, -, hcustody, hpasses⟩ := ht
  exact wp_program_inside (Program.doApply (hadmits hpasses)) hcustody hin hwithin

theorem wp_applyOperation (fee : Option OperationFee) (hc : Contained c s) (h : Inside scopes d s)
    (hadmits : Passes app env op → Admits (c.of env op) op) :
    wp (OperationFrame.apply app env d op fee) (fun _ t => Inside scopes d t ∧ Within d s t)
      (fun _ t => Faulted scopes d t ∧ Within d s t) s := by
  have hrest : ∀ (r : Bool × OperationResult) t, Inside scopes d t → Within d s t →
      wp (do
        syncSigningAccount env op
        modify fun s : LedgerState => { s with results := s.results ++ [r.2] }
        return r.1) (fun _ u => Inside scopes d u ∧ Within d s u)
        (fun _ u => Faulted scopes d u ∧ Within d s u) t := by
    intro r t hin hwithin
    have hsync : OnlyLoads d (do
        syncSigningAccount env op
        modify fun s : LedgerState => { s with results := s.results ++ [r.2] }
        return r.1) := .sync r
    refine wp_mono (hsync t) (fun _ u hu => ?_) fun _ u hu => ?_
    · exact ⟨hu.inside hin, hwithin.trans hu.within⟩
    · exact ⟨(hu.inside hin).faulted, hwithin.trans hu.within⟩
  have hbody : wp (do
      OperationFrame.checkValid app env (some d) op fee
      return (true, OperationResult.opINNER (← OperationFrame.doApply app env d op fee)))
      (fun _ t => Inside scopes d t ∧ Within d s t)
      (fun e t => (Mode.inside d).Stops s.db scopes e t ∧ Within d s t) s := by
    simpa only [wp_bind, wp_pure] using wp_checkThenApply fee hc h hadmits
  unfold OperationFrame.apply
  rw [wp_bind, wp_tryCatch]
  refine wp_mono hbody (fun r t ht => hrest r t ht.1 ht.2) fun e t ht => ?_
  obtain ⟨hstops, hwithin⟩ := ht
  cases e with
  | opFailed r => exact hrest _ t (hstops.resolve_right fun hne => hne.1 r rfl) hwithin
  | _ => exact ⟨hstops.elim Inside.faulted And.right, hwithin⟩

/-! ## Transactions -/

/-- An operation in its own delta, with its meta. -/
def applyWithMeta (app : Application) (env : TransactionEnvelope) (d : ℕ)
    (o : Operation × Option OperationFee) : LedgerM Bool :=
  nested d do
    let txRes ← OperationFrame.apply app env (d + 1) o.1 o.2
    modify fun s => { s with tm := s.tm ++ [(s.deltas (d + 1)).getChanges] }
    return txRes

theorem inside_noted (h : Inside scopes d s) (tm : List (List LedgerEntryChange)) :
    Inside scopes d { s with tm } := by
  have hstill : Still d s { s with tm } := .of_deltas (fun _ => rfl) rfl rfl rfl rfl
  exact ⟨h.coherent, fun c hc => ⟨(h.tracks c hc).1, hstill.tracks (h.tracks c hc).2⟩⟩

theorem keepsContained_applyWithMeta {o : Operation × Option OperationFee}
    (hadmits : Passes app env o.1 → Admits (c.of env o.1) o.1) :
    KeepsContained c (applyWithMeta app env d o) fun _ => True :=
  .nested ((keepsContained_applyOperation hadmits).seq fun _ =>
    .modify_seq (fun _ h => h.of_eq rfl (fun _ hp => hp) rfl rfl) (.pure True.intro))

theorem keepsOrder_applyWithMeta {o : Operation × Option OperationFee}
    (hadmits : Passes app env o.1 → Admits (c.of env o.1) o.1) :
    KeepsOrder c d (applyWithMeta app env d o) := by
  have hmeta : ∀ txRes : Bool, KeepsOrder c (d + 1) (do
      modify fun s : LedgerState => { s with tm := s.tm ++ [(s.deltas (d + 1)).getChanges] }
      return txRes) := by
    intro txRes scopes s _ h
    exact ⟨inside_noted h _, ⟨fun _ _ => rfl, rfl, rfl⟩, fun _ _ => rfl⟩
  refine KeepsOrder.nested (.bind ?_ (keepsContained_applyOperation hadmits) fun txRes _ =>
    hmeta txRes)
  intro scopes s hc h
  exact wp_mono (wp_applyOperation o.2 hc h hadmits) (fun _ _ ht => ⟨ht.1, ht.2.steps⟩)
    fun _ _ ht => ⟨ht.1, ht.2.steps⟩

theorem keepsOrder_applyOperations {ops : List (Operation × Option OperationFee)}
    (hadmits : ∀ o ∈ ops, Passes app env o.1 → Admits (c.of env o.1) o.1) :
    KeepsOrder c d (applyOperations app env d ops) := by
  induction ops with
  | nil => exact .pure false
  | cons o ops ih =>
    have hop := hadmits o List.mem_cons_self
    have hrest : ∀ o' ∈ ops, Passes app env o'.1 → Admits (c.of env o'.1) o'.1 :=
      fun o' ho' => hadmits o' (List.mem_cons_of_mem _ ho')
    exact (keepsOrder_applyWithMeta hop).bind (keepsContained_applyWithMeta hop) fun _ _ =>
      (ih hrest).bind (keepsContained_applyOperations hrest) fun _ _ => .pure _

/-! ### All operations, or none -/

/-- What a transaction leaves behind that does not succeed: in its delta, what was loaded. -/
structure Unchanged (d : ℕ) (s s' : LedgerState) : Prop where
  db : s'.db = s.db
  coherent : Coherent s'
  deltas : ∀ j < d, s'.deltas j = s.deltas j
  same : ∀ k, (s.deltas d).Same k (s'.deltas d)
  header : (s.deltas d).SameHeader (s'.deltas d)
  ledger : s'.mCurrentLedger = s.mCurrentLedger
  history : s'.txhistory = s.txhistory

theorem Checked.unchanged (h : Checked d s t) (hs : Coherent s) : Unchanged d s t :=
  ⟨h.loaded.db, hs.loaded h.loaded, fun j hj => h.loaded.delta j (by omega), h.loaded.same,
    h.loaded.header, h.loaded.ledger, h.loaded.history⟩

theorem Unchanged.trans (h : Unchanged d s t) (h' : Unchanged d t s') : Unchanged d s s' :=
  ⟨h'.db.trans h.db, h'.coherent, fun j hj => (h'.deltas j hj).trans (h.deltas j hj),
    fun k => (h.same k).trans (h'.same k), ⟨h'.header.1.trans h.header.1,
    h'.header.2.trans h.header.2⟩, h'.ledger.trans h.ledger, h'.history.trans h.history⟩

/-- **All or nothing**: code in a delta and a transaction of the database. Where it stops, all that
is left are its notes. -/
theorem wp_nested_sqlTransaction {x : LedgerM α} {H : α → LedgerState → Prop}
    {G : Exit → LedgerState → Prop} (h : Inside scopes d s)
    (hx : wp x (fun a t => (Inside (⟨s.db, d + 1⟩ :: scopes) (d + 1) t ∧
        (Mode.inside (d + 1)).Steps (withDelta d s) t) ∧ H a t)
      (fun e t => (Faulted (⟨s.db, d + 1⟩ :: scopes) (d + 1) t ∧
        (Mode.inside (d + 1)).Steps (withDelta d s) t) ∧ G e t) (withDelta d s)) :
    wp (nested d (sqlTransaction x))
      (fun a s' => Inside scopes d s' ∧ (Mode.inside d).Steps s s' ∧
        ∃ t, H a t ∧ commit d t = .ok () s')
      (fun e s' => e = .abort ∨ Unchanged d s s' ∧
        ∃ t, G e t ∧ s' = rolledBack (d + 1) { t with db := s.db }) s := by
  have hprevious : wp (nested d (sqlTransaction x)) (fun _ s' => SamePrevious d s s')
      (fun _ s' => SamePrevious d s s') s := by
    refine wp_nested_previous ?_
    rw [wp_sqlTransaction]
    exact wp_mono hx (fun _ _ ht => ht.1.2.previous) fun _ _ ht => ht.1.2.previous
  have hscope : wp (nested d (sqlTransaction x))
      (fun a s' => (Inside scopes d s' ∧ Outside d s s') ∧ ∃ t, H a t ∧ commit d t = .ok () s')
      (fun e s' => e = .abort ∨ Unchanged d s s' ∧
        ∃ t, G e t ∧ s' = rolledBack (d + 1) { t with db := s.db }) s := by
    simp only [nested, openDelta, sqlTransaction, rollback, wp_bind, wp_modify, wp_tryCatch, wp_get,
      wp_throw, wp_pure]
    refine wp_mono hx (fun a t ht => ?_) fun e t ht => Or.inr ⟨?_, t, ht.2, rfl⟩
    · obtain ⟨⟨hin, hsteps⟩, hH⟩ := ht
      have hin' : Inside scopes (d + 1) t :=
        ⟨hin.coherent, fun c hc => hin.tracks c (List.mem_cons_of_mem _ hc)⟩
      refine wp_mono (wp_and_eq (wp_commit hin' fun c hc => (h.tracks c hc).1))
        (fun _ s' hs' => ?_) fun e s' hs' => ?_
      · exact ⟨⟨hs'.1.1, hsteps.outside.opened.trans hs'.1.2⟩, t, hH, hs'.2⟩
      · obtain ⟨rfl, he⟩ := hs'
        refine Or.inl (he.resolve_right fun hmismatch => hmismatch.2 ?_)
        -- the delta around it still has the header that it was opened over
        rw [hsteps.previous (d + 1) le_rfl, hsteps.outside.openedAt]
        exact congrArg _ (Function.update_self ..)
    · obtain ⟨⟨hfault, hsteps⟩, -⟩ := ht
      have hout : Outside d s t := hsteps.outside.opened
      refine ⟨rfl, (h.rolledBack hfault hsteps.outside).coherent, hout.deltas, fun k => ?_, ?_,
        hout.ledger, hout.history⟩
      · have hdelta : t.deltas d = s.deltas d := hsteps.outside.openedAt
        show (s.deltas d).Same k (t.deltas d)
        rw [hdelta]
        exact .refl k _
      · have hdelta : t.deltas d = s.deltas d := hsteps.outside.openedAt
        show (s.deltas d).SameHeader (t.deltas d)
        rw [hdelta]
        exact ⟨rfl, rfl⟩
  exact wp_mono (wp_and hscope hprevious) (fun _ _ hs => ⟨hs.1.1.1, ⟨hs.1.1.2, hs.2⟩, hs.1.2⟩)
    fun _ _ hs => hs.1

/-- Nothing that an operation changed is in the meta. -/
def NoChanges (tm : List (List LedgerEntryChange)) : Prop := ∀ changes ∈ tm, changes = []

/-- The checks of a transaction, in its delta. -/
def checks (app : Application) (env : TransactionEnvelope) : LedgerM Unit := do
  resetSignatureTracker env
  commonValid app env (some 1) 0

/-- The transaction as far as its operations: whether one of them failed. -/
def runOperations (app : Application) (env : TransactionEnvelope) : LedgerM Bool := do
  checks app env
  openDelta 1
  applyOperations app env 2 (mOperations env)

/-- A transaction starts with frames that have not loaded an account yet. -/
def newFrames (s : LedgerState) : LedgerState :=
  { s with tm := [], results := [], mSigningAccount := none, mSourceAccount := none }

/-- Where a transaction starts, in a delta of its own. -/
def begun (s : LedgerState) : LedgerState := withDelta 0 (newFrames s)

/-- What is left of the meta when a transaction does not succeed: it is cleared only after an
operation that failed. A failed assertion ends the process, and leaves nothing. -/
def keptMeta (tm : List (List LedgerEntryChange)) : Exit → List (List LedgerEntryChange)
  | .txFailed (.txFAILED _) => []
  | .abort => []
  | _ => tm

/-- Where the operations got to is not taken back from the meta: either all of them succeeded, but
there is a signature that none of them used, or there was an exception; and there are changes in
the meta. -/
def LeavesChanges (app : Application) (env : TransactionEnvelope) (s : LedgerState) : Prop :=
  match runOperations app env s with
  | .ok errorEncountered t =>
    errorEncountered = false ∧ ¬ t.mUsedSignatures.all id ∧ ¬ NoChanges t.tm
  | .error e t => ¬ NoChanges (keptMeta t.tm e)

/-- The operations succeed one after another, each in the state that the one before it left. -/
inductive Applied (app : Application) (env : TransactionEnvelope) (d : ℕ) :
    List (Operation × Option OperationFee) → List (List LedgerEntryChange) →
      LedgerState → LedgerState → Prop
  | nil (s : LedgerState) : Applied app env d [] [] s s
  | cons {o : Operation × Option OperationFee} {ops : List (Operation × Option OperationFee)}
      {tm : List (List LedgerEntryChange)} {s t u v : LedgerState}
      (happly : OperationFrame.apply app env (d + 1) o.1 o.2 (withDelta d s) = .ok true t)
      (hcommit : commit d { t with tm := s.tm ++ [(t.deltas (d + 1)).getChanges] } = .ok () u)
      (hrest : Applied app env d ops tm u v) :
      Applied app env d (o :: ops) ((t.deltas (d + 1)).getChanges :: tm) s v

/-- A commit changes nothing but the delta. -/
theorem wp_commit_delta (d : ℕ) (s : LedgerState) :
    wp (commit d)
      (fun _ s' => ∃ δ : LedgerDelta, s' = { s with deltas := Function.update s.deltas d δ } ∧
        δ.mCurrentHeader = (s.deltas (d + 1)).mCurrentHeader)
      (fun _ _ => True) s := by
  simp only [commit, wp_bind, wp_get, wp_ite, wp_throw, wp_updateDelta]
  refine ⟨fun _ => trivial, fun _ => ⟨fun δ hδ => ⟨δ, rfl, ?_⟩, fun _ => trivial⟩⟩
  obtain ⟨δ₀, -, rfl⟩ := Option.map_eq_some_iff.mp hδ
  rfl

/-- What an operation returns, and notes in the meta. -/
theorem wp_applyWithMeta {o : Operation × Option OperationFee} (hc : Contained c s)
    (h : Inside scopes d s) (hadmits : Passes app env o.1 → Admits (c.of env o.1) o.1) :
    wp (applyWithMeta app env d o) (fun txRes u => ∃ t,
        OperationFrame.apply app env (d + 1) o.1 o.2 (withDelta d s) = .ok txRes t ∧
          commit d { t with tm := s.tm ++ [(t.deltas (d + 1)).getChanges] } = .ok () u ∧
            u.tm = s.tm ++ [(t.deltas (d + 1)).getChanges])
      (fun _ _ => True) s := by
  have hopened : Contained c (withDelta d s) := hc.of_eq rfl (fun _ hp => hp) rfl rfl
  simp only [applyWithMeta, nested, openDelta, wp_bind, wp_modify, wp_tryCatch]
  refine wp_mono (wp_and_eq (wp_applyOperation o.2 hopened h.opened hadmits))
    (fun txRes t ht => ?_) fun _ _ _ => by simp only [rollback, wp_modify, wp_throw]
  obtain ⟨⟨-, hwithin⟩, heq⟩ := ht
  have htm : t.tm = s.tm := hwithin.tm
  rw [htm, wp_pure]
  refine wp_mono (wp_and_eq (wp_commit_delta d _)) (fun _ u hu => ?_)
    fun _ _ _ => by simp only [rollback, wp_modify, wp_throw]
  obtain ⟨⟨δ, htm, -⟩, hcommit⟩ := hu
  refine ⟨t, heq, hcommit, ?_⟩
  rw [htm]

theorem wp_applyOperations {ops : List (Operation × Option OperationFee)}
    (hadmits : ∀ o ∈ ops, Passes app env o.1 → Admits (c.of env o.1) o.1)
    (hc : Contained c s) (h : Inside scopes d s) :
    wp (applyOperations app env d ops)
      (fun errorEncountered t => errorEncountered = false →
        ∃ tm, t.tm = s.tm ++ tm ∧ Applied app env d ops tm s t)
      (fun _ _ => True) s := by
  induction ops generalizing s with
  | nil => exact fun _ => ⟨[], (List.append_nil _).symm, .nil s⟩
  | cons o ops ih =>
    have hop := hadmits o List.mem_cons_self
    have hrest : ∀ o' ∈ ops, Passes app env o'.1 → Admits (c.of env o'.1) o'.1 :=
      fun o' ho' => hadmits o' (List.mem_cons_of_mem _ ho')
    have hsplit : applyOperations app env d (o :: ops) = (do
      let txRes ← applyWithMeta app env d o
      let errorEncountered ← applyOperations app env d ops
      return !txRes || errorEncountered) := rfl
    rw [hsplit, wp_bind]
    refine wp_mono (wp_and (wp_and (wp_applyWithMeta hc h hop)
      (keepsContained_applyWithMeta hop s hc)) (keepsOrder_applyWithMeta hop scopes s hc h))
      (fun txRes u hu => ?_) fun _ _ _ => trivial
    obtain ⟨⟨⟨t, happly, hcommit, htm⟩, hcu, -⟩, hin, -⟩ := hu
    rw [wp_bind]
    refine wp_mono (ih hrest hcu hin) (fun errorEncountered v hv => ?_) fun _ _ _ => trivial
    intro hok
    obtain ⟨hres, herror⟩ := Bool.or_eq_false_iff.mp hok
    obtain ⟨tm, htm', happlied⟩ := hv herror
    have hres : txRes = true := by simpa using hres
    subst hres
    exact ⟨_, by rw [htm', htm, List.append_assoc]; rfl, .cons happly hcommit happlied⟩

/-- How the operations do not come to anything. -/
inductive Fails (app : Application) (env : TransactionEnvelope) (s t : LedgerState) : Exit → Prop
  | operation (h : applyOperations app env 2 (mOperations env) (withDelta 1 s) = .ok true t) :
      Fails app env s t (.txFailed (.txFAILED t.results))
  | extra (h : applyOperations app env 2 (mOperations env) (withDelta 1 s) = .ok false t)
      (hextra : ¬ t.mUsedSignatures.all id) : Fails app env s t (.txFailed .txBAD_AUTH_EXTRA)
  | stopped {e : Exit}
      (h : applyOperations app env 2 (mOperations env) (withDelta 1 s) = .error e t) :
      Fails app env s t e

/-- The operations all succeed, and use all signatures. -/
structure Succeeds (app : Application) (env : TransactionEnvelope) (s t : LedgerState) : Prop where
  operations : applyOperations app env 2 (mOperations env) (withDelta 1 s) = .ok false t
  signatures : t.mUsedSignatures.all id
  applied : ∃ tm, t.tm = s.tm ++ tm ∧ Applied app env 2 (mOperations env) tm (withDelta 1 s) t

theorem wp_applyAll (hadmits : AdmitsAll c app env) (hc : Contained c s) (h : Inside scopes 1 s) :
    wp (applyAll app env 1)
      (fun _ s' => Inside scopes 1 s' ∧ (Mode.inside 1).Steps s s' ∧
        ∃ t, Succeeds app env s t ∧ commit 1 t = .ok () s')
      (fun e s' => e = .abort ∨ Unchanged 1 s s' ∧ ∃ t, Fails app env s t e ∧ s'.tm = t.tm) s := by
  have hadmits' : ∀ o ∈ mOperations env, Passes app env o.1 → Admits (c.of env o.1) o.1 :=
    fun o ho => hadmits o.1 (mem_operations ho)
  have hopened : Contained c (withDelta 1 s) := hc.of_eq rfl (fun _ hp => hp) rfl rfl
  have hops := wp_and (wp_and (keepsOrder_applyOperations hadmits' _ _ hopened h.openedScope)
    (wp_applyOperations hadmits' hopened h.opened))
    (wp_self (applyOperations app env 2 (mOperations env)) (withDelta 1 s))
  refine wp_mono (wp_nested_sqlTransaction (H := fun _ t => Succeeds app env s t)
    (G := fun e t => Fails app env s t e) h ?_) (fun _ _ hs => hs) fun e s' hs => ?_
  · rw [wp_bind]
    refine wp_mono hops (fun errorEncountered t ht => ?_) fun e t ht => ⟨ht.1.1, .stopped ht.2⟩
    obtain ⟨⟨horder, happlied⟩, heq⟩ := ht
    cases errorEncountered with
    | true =>
      simp only [↓reduceIte, wp_bind, wp_get, wp_throw]
      exact ⟨⟨horder.1.faulted, horder.2⟩, .operation heq⟩
    | false =>
      simp only [Bool.false_eq_true, ↓reduceIte, checkAllSignaturesUsed, wp_bind, wp_get, wp_ite,
        wp_pure, wp_throw]
      exact ⟨fun hused => ⟨horder, heq, hused, happlied rfl⟩,
        fun hextra => ⟨⟨horder.1.faulted, horder.2⟩, .extra heq hextra⟩⟩
  · refine hs.imp_right fun hs => ⟨hs.1, ?_⟩
    obtain ⟨-, t, hfails, rfl⟩ := hs
    exact ⟨t, hfails, rfl⟩

theorem leavesChanges_of_checks {e : Exit} (h : checks app env s = .error e t) :
    LeavesChanges app env s ↔ ¬ NoChanges (keptMeta t.tm e) := by
  have hrun : runOperations app env s = .error e t := by
    show EStateM.bind (checks app env) _ s = _
    rw [EStateM.bind, h]
  rw [LeavesChanges, hrun]

theorem runOperations_of_checks (h : checks app env s = .ok () t) :
    runOperations app env s = applyOperations app env 2 (mOperations env) (withDelta 1 t) := by
  show EStateM.bind (checks app env) _ s = _
  rw [EStateM.bind, h]
  rfl

theorem leavesChanges_of_fails {u : LedgerState} {e : Exit} (h : checks app env s = .ok () t)
    (hfails : Fails app env t u e) :
    LeavesChanges app env s ↔ ¬ NoChanges (keptMeta u.tm e) := by
  rw [LeavesChanges, runOperations_of_checks h]
  cases hfails with
  | operation h =>
    rw [h]
    simp [keptMeta, NoChanges]
  | extra h hextra =>
    rw [h]
    simp [keptMeta, hextra]
  | stopped h => rw [h]

theorem not_leavesChanges_of_succeeds {u : LedgerState} (h : checks app env s = .ok () t)
    (hsucceeds : Succeeds app env t u) : ¬ LeavesChanges app env s := by
  rw [LeavesChanges, runOperations_of_checks h, hsucceeds.operations]
  exact fun hleaves => hleaves.2.1 hsucceeds.signatures

/-- A transaction that did not succeed. -/
structure Failed (app : Application) (env : TransactionEnvelope) (s s' : LedgerState) : Prop where
  unchanged : Unchanged 1 s s'
  tm : NoChanges s'.tm ↔ ¬ LeavesChanges app env s

/-- A transaction that succeeded. -/
structure Succeeded (app : Application) (env : TransactionEnvelope) (s s' : LedgerState) :
    Prop where
  inside : Inside [] 1 s'
  steps : (Mode.inside 1).Steps s s'
  tm : ¬ LeavesChanges app env s
  reflects : ∃ t u v, checks app env s = .ok () t ∧ t.tm = s.tm ∧ Succeeds app env t u ∧
    commit 1 u = .ok () v ∧ s' = { v with mResult := .txSUCCESS v.results }

/-- **A transaction is applied**, or not. -/
theorem wp_apply (hadmits : AdmitsAll c app env) (hc : Contained c s) (h : Inside [] 1 s) :
    wp (TransactionFrame.apply app env 1)
      (fun succeeded s' => (succeeded = true → Succeeded app env s s') ∧
        (succeeded = false → Failed app env s s'))
      (fun e s' => e = .abort ∨ (∀ r, e ≠ .txFailed r) ∧ Failed app env s s') s := by
  have hchecks : wp (checks app env)
      (fun _ t => (Checked 1 s t ∧ checks app env s = .ok () t) ∧ Contained c t)
      (fun e t => Checked 1 s t ∧ checks app env s = .error e t) s := by
    have hloads : OnlyLoads 1 (checks app env) :=
      OnlyLoads.resetSignatureTracker.bind fun _ => .commonValid
    have hcontained : KeepsContained c (checks app env) fun _ => True :=
      keepsContained_resetSignatureTracker.seq fun _ => keepsContained_commonValid
    exact wp_mono (wp_and (wp_and (hloads s) (wp_self _ s)) (hcontained s hc))
      (fun _ _ ht => ⟨ht.1, ht.2.1⟩) fun _ _ ht => ht.1
  have hsplit : wp (resetSignatureTracker env) (fun _ s' => wp (commonValid app env (some 1) 0)
      (fun _ t => (Checked 1 s t ∧ checks app env s = .ok () t) ∧ Contained c t)
      (fun e t => Checked 1 s t ∧ checks app env s = .error e t) s')
      (fun e t => Checked 1 s t ∧ checks app env s = .error e t) s := by
    rw [← wp_bind]
    exact hchecks
  -- what is left where it stops, before the handler
  have hbody : wp (do
      resetSignatureTracker env
      commonValid app env (some 1) 0
      applyAll app env 1
      modify fun s => { s with mResult := .txSUCCESS s.results }
      return true)
      (fun succeeded s' => succeeded = true ∧ Succeeded app env s s')
      (fun e s' => e = .abort ∨ Unchanged 1 s s' ∧
        (NoChanges (keptMeta s'.tm e) ↔ ¬ LeavesChanges app env s)) s := by
    have hstopped : ∀ e t, Checked 1 s t → checks app env s = .error e t → e = .abort ∨
        Unchanged 1 s t ∧ (NoChanges (keptMeta t.tm e) ↔ ¬ LeavesChanges app env s) :=
      fun e t ht heq => Or.inr ⟨ht.unchanged h.coherent,
        by rw [leavesChanges_of_checks heq, not_not]⟩
    rw [wp_bind]
    refine wp_mono hsplit (fun _ s₁ hs₁ => ?_) fun e t ht => hstopped e t ht.1 ht.2
    rw [wp_bind]
    refine wp_mono hs₁ (fun _ t ht => ?_) fun e t ht => hstopped e t ht.1 ht.2
    obtain ⟨⟨hchecked, heq⟩, hct⟩ := ht
    rw [wp_bind]
    refine wp_mono (wp_applyAll hadmits hct (hchecked.inside h)) (fun _ v hv => ?_)
      fun e v hv => hv.imp_right fun hv => ?_
    · obtain ⟨hin, hsteps, u, hsucceeds, hcommit⟩ := hv
      simp only [wp_bind, wp_modify, wp_pure]
      have hnotes : Still 1 v { v with mResult := .txSUCCESS v.results } :=
        .of_deltas (fun _ => rfl) rfl rfl rfl rfl
      refine ⟨trivial, ⟨hin.coherent, by simp⟩, ?_, not_leavesChanges_of_succeeds heq hsucceeds,
        t, u, v, heq, hchecked.tm, hsucceeds, hcommit, rfl⟩
      exact hchecked.within.steps.trans (hsteps.trans ⟨hnotes.outside, fun _ _ => rfl⟩)
    · obtain ⟨hunchanged, u, hfails, htm⟩ := hv
      refine ⟨(hchecked.unchanged h.coherent).trans hunchanged, ?_⟩
      rw [leavesChanges_of_fails heq hfails, htm, not_not]
  unfold TransactionFrame.apply
  rw [wp_tryCatch]
  refine wp_mono hbody (fun succeeded s' hs => ⟨fun _ => hs.2, fun hfalse => ?_⟩) fun e s' hs => ?_
  · rw [hs.1] at hfalse
    cases hfalse
  · have hnotes : ∀ (tm : List (List LedgerEntryChange)) (r : TransactionResult),
        Unchanged 1 s s' → Unchanged 1 s { s' with tm, mResult := r } := fun _ _ h =>
      ⟨h.db, h.coherent, h.deltas, h.same, h.header, h.ledger, h.history⟩
    cases e with
    | abort => exact Or.inl rfl
    | txFailed r =>
      obtain ⟨hunchanged, htm⟩ := hs.resolve_left (by simp)
      cases r with
      | txFAILED results => exact ⟨by simp, fun _ => ⟨hnotes _ _ hunchanged, htm⟩⟩
      | _ => exact ⟨by simp, fun _ => ⟨hnotes _ _ hunchanged, htm⟩⟩
    | _ =>
      obtain ⟨hunchanged, htm⟩ := hs.resolve_left (by simp)
      exact Or.inr ⟨by simp, hunchanged, htm⟩

/-! ## Ledgers -/

/-- The entry that a load finds: the cached one, or else that of the table. -/
def readEntry (s : LedgerState) (k : LedgerKey) : Option LedgerEntry :=
  (s.mEntryCache.lookup k).getD (s.db.select k)

/-- Nothing has happened. -/
structure Undone (s s' : LedgerState) : Prop where
  rows : s'.db = s.db
  delta : s'.deltas 0 = s.deltas 0
  header : s'.mCurrentLedger = s.mCurrentLedger
  cache : ∀ k, readEntry s' k = readEntry s k

/-- All operations have succeeded, in their order: the rows are those that the last one left, the
deltas were committed one into the other, and the meta has the changes of each operation. -/
def Done (app : Application) (env : TransactionEnvelope) (s s' : LedgerState)
    (tm : List (List LedgerEntryChange)) : Prop :=
  ∃ t u v w, checks app env (begun s) = .ok () t ∧
    Applied app env 2 (mOperations env) tm (withDelta 1 t) u ∧ commit 1 u = .ok () v ∧
      commit 0 { v with mResult := .txSUCCESS v.results } = .ok () w ∧
        s'.db = u.db ∧ s'.deltas 0 = w.deltas 0 ∧
          (s'.deltas 0).mCurrentHeader = (u.deltas 2).mCurrentHeader

/-- A transaction is applied as a whole, or not at all, and its meta says so. -/
def Atomic (app : Application) (env : TransactionEnvelope) (s s' : LedgerState) : Prop :=
  ∃ result tm, s'.txhistory = s.txhistory ++ [⟨result, tm⟩] ∧
    ((∃ t, TransactionFrame.apply app env 1 (begun s) = .ok true t) → Done app env s s' tm) ∧
      ((¬ ∃ t, TransactionFrame.apply app env 1 (begun s) = .ok true t) →
        Undone s s' ∧ NoChanges tm)

theorem readEntry_of_coherent (h : Coherent s) (k : LedgerKey) :
    readEntry s k = s.db.select k := by
  rw [readEntry]
  cases hlookup : s.mEntryCache.lookup k with
  | none => rfl
  | some p =>
    obtain ⟨l₁, l₂, heq, -⟩ := List.lookup_eq_some_iff.mp hlookup
    exact h k p (heq ▸ List.mem_append_right _ List.mem_cons_self)

/-- Nothing has been changed in a delta that has only seen loads. -/
theorem getChanges_of_same {header : LedgerHeader} {b : Bool} {δ : LedgerDelta}
    (h : ∀ k, (LedgerDelta.ofHeader header b).Same k δ) : δ.getChanges = [] := by
  have hnew : δ.mNew = ∅ := Std.ExtTreeMap.eq_empty_iff_forall_not_mem.mpr fun k hk =>
    Std.ExtTreeMap.not_mem_empty ((h k).1.mp hk)
  have hmod : δ.mMod = ∅ := Std.ExtTreeMap.eq_empty_iff_forall_not_mem.mpr fun k hk =>
    Std.ExtTreeMap.not_mem_empty ((h k).2.1.mp hk)
  have hdeleted : δ.mDelete = ∅ := Std.ExtTreeMap.eq_empty_iff_forall_not_mem.mpr fun k hk =>
    Std.ExtTreeMap.not_mem_empty ((h k).2.2.mp hk)
  rw [LedgerDelta.getChanges, hnew, hmod, hdeleted]
  rfl

theorem begun_zero (s : LedgerState) : (begun s).deltas 0 = s.deltas 0 := by
  simp [begun, newFrames, withDelta]

theorem begun_one (s : LedgerState) : (begun s).deltas 1 =
    .ofHeader (s.deltas 0).mCurrentHeader (s.deltas 0).mUpdateLastModified := by
  simp [begun, newFrames, withDelta]

theorem Failed.undone (h : Failed app env (begun s) s') (hs : Coherent s) :
    Coherent (rolledBack 1 s') ∧ Undone s (rolledBack 1 s') := by
  have hrows : s'.db = s.db := h.unchanged.db
  have hcoherent : Coherent (rolledBack 1 s') := fun k v hmem =>
    h.unchanged.coherent k v (mem_foldl_eraseCached.mp hmem).1
  refine ⟨hcoherent, hrows, ?_, h.unchanged.ledger, fun k => ?_⟩
  · exact (h.unchanged.deltas 0 one_pos).trans (begun_zero s)
  · rw [readEntry_of_coherent hcoherent, readEntry_of_coherent hs]
    exact congrArg (·.select k) hrows

/-- What the ledger asserts about a transaction that failed. -/
theorem Failed.asserted (h : Failed app env (begun s) s') :
    (s'.deltas 1).getChanges = [] ∧
      (s'.deltas 1).mCurrentHeader = (s'.deltas 0).mCurrentHeader := by
  have houter : s'.deltas 0 = s.deltas 0 := (h.unchanged.deltas 0 one_pos).trans (begun_zero s)
  have hsame := h.unchanged.same
  have hheader := h.unchanged.header.1
  rw [begun_one] at hsame hheader
  exact ⟨getChanges_of_same hsame, by rw [houter, hheader]; rfl⟩

/-- The delta of a transaction, committed if it succeeds. -/
theorem wp_nested_applyInDelta (hadmits : AdmitsAll c app env) (hc : Contained c s)
    (h : Coherent s) :
    wp (nested 0 (applyInDelta app env))
      (fun _ s' => (Coherent s' ∧ s'.txhistory = s.txhistory) ∧ Done app env s s' s'.tm ∧
        ¬ LeavesChanges app env (begun s) ∧
          ∃ t, TransactionFrame.apply app env 1 (begun s) = .ok true t)
      (fun e s' => e = .abort ∨ (Coherent s' ∧ s'.txhistory = s.txhistory) ∧ Undone s s' ∧
        (NoChanges s'.tm ↔ ¬ LeavesChanges app env (begun s)) ∧
          ¬ ∃ t, TransactionFrame.apply app env 1 (begun s) = .ok true t)
      (newFrames s) := by
  have hcb : Contained c (begun s) := hc.newFrames rfl (fun _ hp => hp) rfl rfl
  have hib : Inside [] 1 (begun s) := ⟨h, nofun⟩
  simp only [nested, openDelta, rollback, applyInDelta, wp_bind, wp_modify, wp_tryCatch, wp_throw,
    wp_pure]
  refine wp_mono (wp_and (wp_apply hadmits hcb hib) (wp_self _ (begun s)))
    (fun succeeded s' hs => ?_) fun e s' hs => ?_
  · obtain ⟨hs, heq⟩ := hs
    cases succeeded with
    | false =>
      have hfailed : Failed app env (begun s) s' := hs.2 rfl
      simp only [Bool.false_eq_true, ↓reduceIte, assertion, wp_bind, wp_get, wp_require, wp_throw]
      refine ⟨fun _ => Or.inr ?_, fun hassert => absurd hfailed.asserted (by simpa using hassert)⟩
      obtain ⟨hcoherent, hundone⟩ := hfailed.undone h
      refine ⟨⟨hcoherent, hfailed.unchanged.history⟩, hundone, hfailed.tm, fun hok => ?_⟩
      obtain ⟨t, ht⟩ := hok
      rw [heq] at ht
      cases ht
    | true =>
      have hsucceeded : Succeeded app env (begun s) s' := hs.1 rfl
      have hcommit := wp_and (wp_and_eq (wp_commit (d := 0) (t := s') hsucceeded.inside nofun))
        (wp_commit_delta 0 s')
      simp only [↓reduceIte, wp_pure]
      refine wp_mono hcommit (fun _ w hw => ?_) fun e w hw => ?_
      · obtain ⟨⟨⟨hin, hout⟩, hcommitted⟩, δ, hw, hheader⟩ := hw
        obtain ⟨t, u, v, hchecks, htm, hsucceeds, hcommit, hnotes⟩ := hsucceeded.reflects
        obtain ⟨tm, htm', happlied⟩ := hsucceeds.applied
        have hv : wp (commit 1) (fun _ s' => ∃ δ : LedgerDelta,
            s' = { u with deltas := Function.update u.deltas 1 δ } ∧
              δ.mCurrentHeader = (u.deltas 2).mCurrentHeader) (fun _ _ => True) u :=
          wp_commit_delta 1 u
        obtain ⟨δ₁, hv, hheader₁⟩ := of_wp_ok hv hcommit
        have hw0 : w.deltas 0 = δ := by simp [hw]
        have hs1 : s'.deltas 1 = δ₁ := by simp [hnotes, hv]
        have htm0 : t.tm = [] := htm
        have hwtm : w.tm = tm := by
          rw [hw, hnotes, hv]
          show u.tm = tm
          rw [htm', htm0, List.nil_append]
        refine ⟨⟨hin.coherent, ?_⟩, ⟨t, u, v, w, hchecks, hwtm ▸ happlied, hcommit,
          hnotes ▸ hcommitted, ?_, rfl, ?_⟩, hsucceeded.tm, s', heq⟩
        · exact hout.history.trans hsucceeded.steps.outside.history
        · rw [hw, hnotes, hv]
        · rw [hw0, hheader, hs1, hheader₁]
      · -- the delta of the ledger still has the header that it was opened over
        obtain ⟨⟨rfl, he⟩, -⟩ := hw
        refine Or.inl (he.resolve_right fun hmismatch => hmismatch.2 ?_)
        rw [hsucceeded.steps.previous 1 le_rfl, hsucceeded.steps.outside.deltas 0 one_pos,
          begun_one, begun_zero]
        rfl
  · obtain ⟨hs, heq⟩ := hs
    refine hs.imp_right fun hs => ?_
    obtain ⟨-, hfailed⟩ := hs
    obtain ⟨hcoherent, hundone⟩ := hfailed.undone h
    refine ⟨⟨hcoherent, hfailed.unchanged.history⟩, hundone, hfailed.tm, fun hok => ?_⟩
    obtain ⟨t, ht⟩ := hok
    rw [heq] at ht
    cases ht

/-- **Main lemma**: a transaction of a ledger is atomic unless it leaves changes in its meta. -/
theorem wp_applyTransaction (hadmits : AdmitsAll c app env) (hc : Contained c s)
    (h : Coherent s) :
    wp (applyTransaction app env)
      (fun _ s' => Coherent s' ∧ (Atomic app env s s' ↔ ¬ LeavesChanges app env (begun s)))
      (fun e _ => e = .abort) s := by
  have hfailed : ∀ (s' : LedgerState) (r : TransactionResult),
      ((Coherent s' ∧ s'.txhistory = s.txhistory) ∧ Undone s s' ∧
        (NoChanges s'.tm ↔ ¬ LeavesChanges app env (begun s)) ∧
          ¬ ∃ t, TransactionFrame.apply app env 1 (begun s) = .ok true t) →
        Coherent s' ∧ (Atomic app env s { s' with
          mResult := r, txhistory := s'.txhistory ++ [⟨r, s'.tm⟩] } ↔
            ¬ LeavesChanges app env (begun s)) := by
    intro s' r hs'
    obtain ⟨⟨hcoherent, hhistory⟩, hundone, htm, hno⟩ := hs'
    refine ⟨hcoherent, fun hatomic => ?_, fun hleaves => ?_⟩
    · obtain ⟨result, tm, heq, -, hundone'⟩ := hatomic
      have htm' : s'.tm = tm := by
        have hlast := List.append_cancel_left ((congrArg (· ++ _) hhistory).symm.trans heq)
        exact congrArg TransactionHistory.txmeta (List.cons.inj hlast).1
      rw [← htm, htm']
      exact (hundone' hno).2
    · refine ⟨r, s'.tm, by rw [hhistory], fun hok => absurd hok hno, fun _ => ⟨?_, ?_⟩⟩
      · exact ⟨hundone.rows, hundone.delta, hundone.header, hundone.cache⟩
      · exact htm.mpr hleaves
  unfold applyTransaction storeTransaction
  simp only [wp_bind, wp_modify, wp_tryCatch]
  refine wp_mono (wp_nested_applyInDelta hadmits hc h) (fun _ s' hs' => ?_) fun e s' hs' => ?_
  · obtain ⟨⟨hcoherent, hhistory⟩, hdone, hleaves, hok⟩ := hs'
    exact ⟨hcoherent, iff_of_true ⟨s'.mResult, s'.tm, by rw [hhistory], fun _ => hdone,
      fun hno => absurd hok hno⟩ hleaves⟩
  · cases e with
    | abort => rfl
    | txFailed r => exact hfailed s' s'.mResult (hs'.resolve_left (by simp))
    | _ => exact hfailed s' .txINTERNAL_ERROR (hs'.resolve_left (by simp))

/-! ## Every transaction of every ledger -/

/-- Any account may be anything. -/
def anyCustody : Custody := { source := 0 }

theorem admits_any (env : TransactionEnvelope) (op : Operation) :
    Admits (anyCustody.of env op) op :=
  ⟨trivial, fun _ _ => trivial, fun _ _ _ _ _ => trivial,
    fun _ _ => ⟨fun _ _ _ _ => trivial, fun _ => trivial, fun _ _ => trivial⟩, fun _ _ => trivial⟩

theorem admitsAll_anyCustody (app : Application) (env : TransactionEnvelope) :
    AdmitsAll anyCustody app env := fun op _ _ => admits_any env op

/-- Accounts are where they belong, and the cache is in order. -/
structure Ordered (s : LedgerState) : Prop where
  contained : Contained anyCustody s
  coherent : Coherent s

/-- Code that keeps them so, if it returns. -/
def KeepsOrdered (x : LedgerM α) : Prop :=
  ∀ s, Ordered s → wp x (fun _ s' => Ordered s') (fun _ _ => True) s

namespace KeepsOrdered

theorem bind {x : LedgerM α} {f : α → LedgerM β} (hx : KeepsOrdered x)
    (hf : ∀ a, KeepsOrdered (f a)) : KeepsOrdered (x >>= f) := by
  intro s h
  rw [wp_bind]
  exact wp_mono (hx s h) (fun a t ht => hf a t ht) fun _ _ _ => trivial

theorem pure (a : α) : KeepsOrdered (Pure.pure a) := fun _ h => h

theorem forM {xs : List β} {g : β → LedgerM PUnit} (hg : ∀ b, KeepsOrdered (g b)) :
    KeepsOrdered (xs.forM g) := by
  induction xs with
  | nil => exact .pure _
  | cons b xs ih => exact (hg b).bind fun _ => ih

theorem sqlTransaction {x : LedgerM α} (hx : KeepsOrdered x) :
    KeepsOrdered (sqlTransaction x) := by
  intro s h
  rw [wp_sqlTransaction]
  exact hx s h

theorem of_keepsOrder {x : LedgerM α} {R : α → Prop} (hx : KeepsOrder anyCustody d x)
    (hR : KeepsContained anyCustody x R) : KeepsOrdered x := by
  intro s h
  refine wp_mono (wp_and (hx [] s h.contained ⟨h.coherent, nofun⟩) (hR s h.contained))
    (fun _ t ht => ?_) fun _ _ _ => trivial
  exact ⟨ht.2.1, ht.1.1.coherent⟩

/-- Neither the rows nor the cache. -/
theorem memory {g : LedgerState → LedgerState} (hdb : ∀ s, (g s).db = s.db)
    (hcache : ∀ s, (g s).mEntryCache = s.mEntryCache)
    (hsigning : ∀ s, (g s).mSigningAccount = s.mSigningAccount)
    (hsource : ∀ s, (g s).mSourceAccount = s.mSourceAccount) : KeepsOrdered (modify g) := by
  intro s h
  refine ⟨h.contained.of_eq (by rw [hdb]) (fun p hp => hcache s ▸ hp) (hsigning s) (hsource s),
    fun k v hmem => ?_⟩
  rw [hdb]
  rw [hcache] at hmem
  exact h.coherent k v hmem

/-- Neither the rows nor the cache, and then. -/
theorem memory_seq {g : LedgerState → LedgerState} {f : Unit → LedgerM β}
    (hdb : ∀ s, (g s).db = s.db) (hcache : ∀ s, (g s).mEntryCache = s.mEntryCache)
    (hsigning : ∀ s, (g s).mSigningAccount = s.mSigningAccount)
    (hsource : ∀ s, (g s).mSourceAccount = s.mSourceAccount) (hf : KeepsOrdered (f ())) :
    KeepsOrdered (MonadState.modifyGet (fun s => ((), g s)) >>= f) :=
  (memory hdb hcache hsigning hsource).bind fun _ => hf

end KeepsOrdered

theorem keepsOrder_storeChange (f : AccountFrame) : KeepsOrder c d (f.storeChange d) := by
  intro scopes s hc h
  obtain ⟨source, hin⟩ := hc.anyone
  have hruns : KeepsRuns (c.anyone source) (.inside d) (f.storeChange d) :=
    keepsRuns_of_stored takes_inside fun _ => AccountFrame.wp_storeChange
  exact wp_mono (hruns s.db scopes s hin h) (fun _ _ ht => ht)
    fun _ _ ht => ⟨ht.1.elim Inside.faulted And.right, ht.2⟩

theorem keepsOrder_processFeeSeqNum : KeepsOrder c d (processFeeSeqNum env d) := by
  refine (KeepsOrder.of_onlyLoads OnlyLoads.resetSignatureTracker).bind
    keepsContained_resetSignatureTracker fun _ _ => ?_
  refine (KeepsOrder.of_onlyLoads OnlyLoads.loadSigningAccount).bind
    keepsContained_loadSigningAccount fun o ho => ?_
  have hnote : ∀ account : AccountFrame, KeepsOrder c d
      (modify fun s : LedgerState => { s with mSigningAccount := some account }) := fun _ =>
    .of_onlyLoads (.memory (fun _ => rfl) (fun _ => rfl) (fun _ => rfl) (fun _ => rfl)
      (fun _ => rfl) fun _ => rfl)
  have hstore : ∀ f : AccountFrame, c.Holds f → KeepsOrder c d (do
      let account ← f.storeChange d
      modify fun s : LedgerState => { s with mSigningAccount := some account }) := by
    intro f hf
    have hstored : KeepsContained c (f.storeChange d) fun _ => True :=
      (KeepsContained.of_custody fun _ => keepsCustody_storeChange hf).trivial
    exact (keepsOrder_storeChange f).bind hstored fun account _ => hnote account
  cases o with
  | none => exact .of_onlyLoads (.throw _)
  | some account =>
    dsimp only
    split_ifs
    · exact .of_onlyLoads (.throw _)
    · exact hstore _ (ho account rfl)

theorem keepsOrdered_processFeesSeqNums (txs : List TransactionEnvelope) :
    KeepsOrdered (processFeesSeqNums txs) :=
  .sqlTransaction (.forM fun _ => .of_keepsOrder keepsOrder_processFeeSeqNum.nested
    keepsContained_processFeeSeqNum.nested)

theorem keepsOrdered_applyTransactions (txs : List TransactionEnvelope) :
    KeepsOrdered (applyTransactions app txs) := by
  refine .forM fun env s h => ?_
  have hadmits := admitsAll_anyCustody app env
  refine wp_mono (wp_and (wp_applyTransaction hadmits h.contained h.coherent)
    (keepsContained_applyTransaction hadmits s h.contained)) (fun _ t ht => ?_) fun _ _ _ => trivial
  exact ⟨ht.2.1, ht.1.1⟩

/-- Everything that comes before the transactions of a ledger, and some of them. -/
def beforeTransaction (app : Application) (data : LedgerCloseData)
    (txs : List TransactionEnvelope) : LedgerM Unit := do
  modify fun s => { s with
    mCurrentLedger := { s.mCurrentLedger with closeTime := data.closeTime }
    mSigningAccount := none
    mSourceAccount := none }
  modify fun s => { s with deltas := Function.update s.deltas 0 (.ofHeader s.mCurrentLedger) }
  processFeesSeqNums data.txs
  applyTransactions app txs

theorem closeLedger_eq (data : LedgerCloseData) {txs rest : List TransactionEnvelope}
    (h : data.txs = txs ++ rest) : closeLedger app data = sqlTransaction (do
      beforeTransaction app data txs
      applyTransactions app rest
      let header ← getHeader 0
      setHeader 0 (data.upgrades.foldl LedgerUpgrade.upgrade header)
      commitLedger) := by
  have hsplit : applyTransactions app data.txs = (do
      applyTransactions app txs
      applyTransactions app rest) := by
    rw [h]
    exact List.forM_append
  rw [closeLedger, hsplit]
  simp only [beforeTransaction, bind_assoc]

theorem keepsOrdered_beforeTransaction (data : LedgerCloseData) (txs : List TransactionEnvelope) :
    KeepsOrdered (beforeTransaction app data txs) := by
  have hrest : KeepsOrdered (do
      processFeesSeqNums data.txs
      applyTransactions app txs) :=
    (keepsOrdered_processFeesSeqNums _).bind fun _ => keepsOrdered_applyTransactions _
  intro s h
  unfold beforeTransaction
  rw [wp_bind, wp_modify]
  refine KeepsOrdered.memory_seq (f := fun _ => do
    processFeesSeqNums data.txs
    applyTransactions app txs) (fun _ => rfl) (fun _ => rfl) (fun _ => rfl) (fun _ => rfl)
      hrest _ ?_
  exact ⟨h.contained.newFrames rfl (fun _ hp => hp) rfl rfl, h.coherent⟩

theorem keepsOrdered_closeLedger (data : LedgerCloseData) :
    KeepsOrdered (closeLedger app data) := by
  have hcommit : KeepsOrdered (do
      let header ← getHeader 0
      setHeader 0 (data.upgrades.foldl LedgerUpgrade.upgrade header)
      commitLedger) := by
    intro s h
    simp only [getHeader, setHeader, commitLedger, wp_bind, wp_get, wp_pure, wp_updateDelta, wp_ite,
      wp_throw, wp_set]
    refine ⟨fun δ _ => ⟨fun _ => trivial, fun _ => ?_⟩, fun _ => trivial⟩
    exact ⟨h.contained.of_eq rfl (fun _ hp => hp) rfl rfl, h.coherent⟩
  rw [closeLedger_eq data (List.append_nil data.txs).symm]
  exact .sqlTransaction ((keepsOrdered_beforeTransaction data _).bind fun _ =>
    (keepsOrdered_applyTransactions _).bind fun _ => hcommit)

/-- The state in which a transaction of a ledger is applied, after any ledgers. -/
def Reached (app : Application) (env : TransactionEnvelope) (s : LedgerState) : Prop :=
  ∃ ledgers data txs rest s₀, data.txs = txs ++ env :: rest ∧
    runLedgers app ledgers {} = .ok () s₀ ∧ beforeTransaction app data txs s₀ = .ok () s

theorem ordered_runLedgers {ledgers : List LedgerCloseData}
    (h : runLedgers app ledgers {} = .ok () s) : Ordered s := by
  have hstart : wp (startNewLedger app) (fun _ s => Ordered s) (fun _ _ => True) {} := by
    refine wp_mono (wp_startNewLedger (c := anyCustody) trivial (fun _ => trivial)
      fun _ _ _ _ _ => trivial) (fun _ s hs => ⟨hs.1, fun k v hmem => ?_⟩) fun _ _ _ => trivial
    exact absurd hmem (hs.2 _)
  have hledgers : wp (runLedgers app ledgers) (fun _ s => Ordered s) (fun _ _ => True) {} := by
    rw [runLedgers, wp_bind]
    refine wp_mono hstart (fun _ s hs => ?_) fun _ _ _ => trivial
    exact wp_runInputs hs fun _ data _ t _ _ ht => keepsOrdered_closeLedger data t ht
  exact of_wp_ok hledgers h

theorem Reached.ordered (h : Reached app env s) : Ordered s := by
  obtain ⟨ledgers, data, txs, rest, s₀, -, hrun, hbefore⟩ := h
  exact of_wp_ok (keepsOrdered_beforeTransaction data txs s₀ (ordered_runLedgers hrun)) hbefore

end SmartCore.Transactions
