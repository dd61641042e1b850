import SmartCore.Ledger.Stores

/-!
# The entry cache

Accounts and trust lines are read through a cache. An entry is put into it when it is loaded, from
the row as it is at that moment, and taken out of it when it is stored, and when a delta that touched
it is not committed. What has to be shown is that this is enough: that the cache never has an entry
that differs from the row (`Coherent`), also not after the rows went back to what they were.

**Theorem (`runAccesses_coherent`).** After every sequence of loads and stores, in scopes nested in
any way, each committed or rolled back, the cache is coherent.

When a scope is rolled back, the entries that its delta has touched leave the cache, and all others
have not changed since it was opened.
-/

namespace SmartCore.Ledger

/-- What is in the cache is what is in the table, an entry or none. -/
def Coherent (s : LedgerState) : Prop := ∀ k v, (k, v) ∈ s.mEntryCache → v = s.db.select k

section Keeping

variable {kind : StoreKind} {base : Database} {lo d e : ℕ} {k : LedgerKey} {s s' : LedgerState}

theorem Coherent.stored (h : Coherent s) (hs : Stored kind d k s s') : Coherent s' := by
  intro k' v hmem
  obtain ⟨hmem, hself⟩ := hs.cache k' v hmem
  rw [h k' v hmem]
  by_cases hk : k' = k
  · rw [hk, hself hk]
  · exact (hs.row k' hk).symm

theorem Coherent.loaded (h : Coherent s) (hs : Loaded d s s') : Coherent s' := by
  intro k v hmem
  rw [hs.db]
  exact (hs.cache k v hmem).elim (h k v) id

theorem Coherent.halted (h : Coherent s) (hs : Halted k s s') : Coherent s' := by
  intro k' v hmem
  obtain ⟨hmem, hself⟩ := hs.cache k' v hmem
  rw [h k' v hmem]
  by_cases hk : k' = k
  · rw [hk, hself hk]
  · exact (hs.row k' hk).symm

/-- A write is in the innermost delta, or it is a change. -/
theorem Tracks.stored (h : Tracks base lo e s) (hs : Stored kind d k s s') (hlo : lo ≤ d)
    (hde : d ≤ e) (hkind : d = e ∨ kind = .change) : Tracks base lo e s' := by
  have htouched : ∀ k' i, k' ≠ k ∨ i ≠ d →
      (k' ∈ (s'.deltas i).touched ↔ k' ∈ (s.deltas i).touched) := by
    intro k' i hki
    by_cases hi : i = d
    · subst hi
      exact (hs.same k' (hki.resolve_right fun hne => hne rfl)).touched
    · rw [hs.delta i hi]
  refine ⟨fun j hj hje => ?_, fun k' hk' => ?_, fun k' j hj hje hmem => ?_,
    fun k' j hj hje hmem hnot => ?_⟩
  · by_cases hjd : j = d
    · rw [hjd]
      exact hs.wf (h.wf d hlo hde)
    · rw [hs.delta j hjd]
      exact h.wf j hj hje
  · by_cases hk : k' = k
    · -- it is in no delta any more: it was deleted, and the base did not have it
      subst hk
      have hd := hk' d hlo hde
      cases kind with
      | change => exact absurd (hs.change rfl).2.2.1 hd
      | add => exact absurd (hs.add rfl).1 hd
      | delete =>
        obtain ⟨-, hnew, hnone⟩ := hs.delete rfl
        rw [hnone]
        refine ((h.new k' d hlo hde (hnew hd)).resolve_left fun hi => ?_).symm
        obtain ⟨i, hi, hid, hmem⟩ := hi
        exact hk' i hi (by omega) ((htouched k' i (Or.inr (by omega))).mpr hmem)
    · rw [hs.row k' hk]
      exact h.untouched k' fun j hj hje hmem =>
        hk' j hj hje ((htouched k' j (Or.inl hk)).mpr hmem)
  · have hnew : k' ∈ (s.deltas j).mNew ∨
        k' = k ∧ j = d ∧ kind = .add ∧ k ∉ (s.deltas d).touched := by
      by_cases hjd : j = d
      · subst hjd
        by_cases hk : k' = k
        · subst hk
          cases kind with
          | change => exact Or.inl ((hs.change rfl).1.mp hmem)
          | add => exact ((hs.add rfl).2.2.1 hmem).imp_right fun hnot => ⟨rfl, rfl, rfl, hnot⟩
          | delete => exact absurd hmem (hs.delete rfl).1
        · exact Or.inl ((hs.same k' hk).1.mp hmem)
      · rw [hs.delta j hjd] at hmem
        exact Or.inl hmem
    rcases hnew with hnew | ⟨rfl, rfl, rfl, hnot⟩
    · refine (h.new k' j hj hje hnew).imp_left fun hi => ?_
      obtain ⟨i, hi, hij, hmem⟩ := hi
      refine ⟨i, hi, hij, ?_⟩
      by_cases hki : k' = k ∧ i = d
      · obtain ⟨rfl, rfl⟩ := hki
        -- the write is not in the innermost delta
        exact (hs.change (hkind.resolve_left (by omega))).2.2.1
      · exact (htouched k' i (by tauto)).mpr hmem
    · obtain rfl : j = e := hkind.resolve_right nofun
      by_cases hout : ∃ i, lo ≤ i ∧ i < j ∧ k' ∈ (s.deltas i).touched
      · obtain ⟨i, hi, hij, hmem⟩ := hout
        exact Or.inl ⟨i, hi, hij, (htouched k' i (Or.inr (by omega))).mpr hmem⟩
      · refine Or.inr ?_
        rw [← (hs.add rfl).2.2.2]
        refine (h.untouched k' fun i hi hie hmem => ?_).symm
        by_cases hij : i = j
        · exact hnot (hij ▸ hmem)
        · exact hout ⟨i, hi, by omega, hmem⟩
  · by_cases hk : k' = k
    · subst hk
      cases kind with
      | delete => exact (hs.delete rfl).2.2
      | add =>
        obtain rfl : d = e := hkind.resolve_right nofun
        by_cases hjd : j = d
        · subst hjd
          exact absurd hmem (hs.add rfl).2.1
        · exact absurd (hs.add rfl).1 (hnot d (by omega) le_rfl)
      | change =>
        obtain ⟨-, hdel, hin, hrow⟩ := hs.change rfl
        have hjd : d ≤ j := by
          by_contra hlt
          exact hnot d (by omega) hde hin
        have hmem' : k' ∈ (s.deltas j).mDelete := by
          by_cases heq : j = d
          · subst heq
            exact hdel.mp hmem
          · rwa [hs.delta j heq] at hmem
        refine hrow.resolve_left fun hsome => hsome (h.deleted k' j hj hje hmem' fun i hi hie => ?_)
        rw [← hs.delta i (by omega)]
        exact hnot i hi hie
    · have hmem' : k' ∈ (s.deltas j).mDelete := by
        by_cases hjd : j = d
        · subst hjd
          exact (hs.same k' hk).2.2.mp hmem
        · rwa [hs.delta j hjd] at hmem
      rw [hs.row k' hk]
      exact h.deleted k' j hj hje hmem' fun i hi hie hmem =>
        hnot i hi hie ((htouched k' i (Or.inl hk)).mpr hmem)

end Keeping

/-! ## Scopes -/

/-- A scope that is open: the rows when it was opened, and the number of its delta. -/
structure Scope where
  base : Database
  lo : ℕ

/-- Inside the scopes, in the delta `e`. -/
structure Inside (scopes : List Scope) (e : ℕ) (s : LedgerState) : Prop where
  coherent : Coherent s
  tracks : ∀ c ∈ scopes, c.lo ≤ e ∧ Tracks c.base c.lo e s

/-- What is left of it when the code has stopped: enough to leave the scopes. -/
structure Faulted (scopes : List Scope) (e : ℕ) (s : LedgerState) : Prop where
  coherent : Coherent s
  tracks : ∀ c ∈ scopes, CacheTracks c.base c.lo e s

/-- Outside the delta `d` nothing has changed. -/
structure Outside (d : ℕ) (s s' : LedgerState) : Prop where
  deltas : ∀ j < d, s'.deltas j = s.deltas j
  ledger : s'.mCurrentLedger = s.mCurrentLedger
  history : s'.txhistory = s.txhistory

section Scopes

variable {scopes : List Scope} {kind : StoreKind} {d e : ℕ} {k : LedgerKey} {s s' t : LedgerState}
  {α : Type}

theorem Inside.faulted (h : Inside scopes e s) : Faulted scopes e s :=
  ⟨h.coherent, fun c hc => (h.tracks c hc).2.cacheTracks⟩

theorem Outside.refl (d : ℕ) (s : LedgerState) : Outside d s s := ⟨fun _ _ => rfl, rfl, rfl⟩

theorem Outside.trans (h : Outside d s t) (h' : Outside d t s') : Outside d s s' :=
  ⟨fun j hj => (h'.deltas j hj).trans (h.deltas j hj), h'.ledger.trans h.ledger,
    h'.history.trans h.history⟩

theorem Inside.loaded (h : Inside scopes d s) (hs : Loaded d s s') :
    Inside scopes d s' ∧ Outside d s s' := by
  refine ⟨⟨fun k v hmem => ?_, fun c hc => ⟨(h.tracks c hc).1, ?_⟩⟩,
    fun j hj => hs.delta j (by omega), hs.ledger, hs.history⟩
  · rw [hs.db]
    exact (hs.cache k v hmem).elim (h.coherent k v) id
  · obtain ⟨hlo, htracks⟩ := h.tracks c hc
    refine htracks.congr (fun k => by rw [hs.db]) (fun j hj hje => ?_) fun k j _ => ?_
    · by_cases hjd : j = d
      · rw [hjd]
        exact hs.wf (htracks.wf d hlo le_rfl)
      · rw [hs.delta j hjd]
        exact htracks.wf j hj hje
    · by_cases hjd : j = d
      · rw [hjd]
        exact hs.same k
      · rw [hs.delta j hjd]
        exact .refl k _

theorem Inside.stored (h : Inside scopes d s) (hs : Stored kind d k s s') :
    Inside scopes d s' ∧ Outside d s s' := by
  refine ⟨⟨h.coherent.stored hs, fun c hc => ?_⟩, fun j hj => hs.delta j (by omega), hs.ledger,
    hs.history⟩
  obtain ⟨hlo, htracks⟩ := h.tracks c hc
  exact ⟨hlo, htracks.stored hs hlo le_rfl (Or.inl rfl)⟩

theorem Inside.halted (h : Inside scopes d s) (hs : Halted k s s') :
    Faulted scopes d s' ∧ Outside d s s' := by
  refine ⟨⟨h.coherent.halted hs, fun c hc k' v hmem hne => ?_⟩, fun j _ => by rw [hs.deltas],
    hs.ledger, hs.history⟩
  obtain ⟨hmem, hself⟩ := hs.cache k' v hmem
  have hrow : s'.db.select k' = s.db.select k' := by
    by_cases hk : k' = k
    · rw [hk, hself hk]
    · exact hs.row k' hk
  rw [hs.deltas]
  exact (h.tracks c hc).2.cacheTracks k' v hmem (hrow ▸ hne)

/-- Code in the delta `d` that leaves the cache in order, however it ends. -/
def KeepsCache (d : ℕ) (x : LedgerM α) : Prop :=
  ∀ scopes s, Inside scopes d s →
    wp x (fun _ s' => Inside scopes d s' ∧ Outside d s s')
      (fun e s' => (Inside scopes d s' ∨ (∀ r, e ≠ .opFailed r) ∧ Faulted scopes d s') ∧
        Outside d s s') s

theorem KeepsCache.bind {β : Type} {x : LedgerM α} {f : α → LedgerM β} (hx : KeepsCache d x)
    (hf : ∀ a, KeepsCache d (f a)) : KeepsCache d (x >>= f) := by
  intro scopes s h
  rw [wp_bind]
  refine wp_mono (hx scopes s h) (fun a t ht => ?_) fun _ _ h => h
  exact wp_mono (hf a scopes t ht.1) (fun _ _ h => ⟨h.1, ht.2.trans h.2⟩)
    fun _ _ h => ⟨h.1, ht.2.trans h.2⟩

theorem KeepsCache.pure (a : α) : KeepsCache d (pure a : LedgerM α) :=
  fun _ s h => ⟨h, .refl d s⟩

theorem KeepsCache.throw (e : Exit) : KeepsCache d (throw e : LedgerM α) :=
  fun _ s h => ⟨Or.inl h, .refl d s⟩

theorem WpLoaded.keepsCache {x : LedgerM α} (hx : WpLoaded d x) : KeepsCache d x := by
  intro scopes s h
  refine wp_mono (hx s) (fun _ _ hs => h.loaded hs) fun _ _ hs => ?_
  obtain ⟨hin, hout⟩ := h.loaded hs.2
  exact ⟨Or.inl hin, hout⟩

theorem keepsCache_of_stored {x : LedgerM α} (hx : ∀ s, WpStored kind d k s x) :
    KeepsCache d x := by
  intro scopes s h
  refine wp_mono (hx s) (fun _ _ hs => h.stored hs) fun e s' hs => ?_
  rcases hs with ⟨hne, hs | hs⟩
  · obtain ⟨hin, hout⟩ := h.stored hs
    exact ⟨Or.inl hin, hout⟩
  · obtain ⟨hfault, hout⟩ := h.halted hs
    exact ⟨Or.inr ⟨hne, hfault⟩, hout⟩

/-- The state with the delta `d + 1` opened. -/
def withDelta (d : ℕ) (s : LedgerState) : LedgerState :=
  { s with deltas := Function.update s.deltas (d + 1) (.ofHeader (s.deltas d).mCurrentHeader
    (s.deltas d).mUpdateLastModified) }

theorem Inside.opened (h : Inside scopes d s) : Inside scopes (d + 1) (withDelta d s) := by
  refine ⟨h.coherent, fun c hc => ?_⟩
  obtain ⟨hlo, htracks⟩ := h.tracks c hc
  exact ⟨by omega, htracks.opened _ _ rfl rfl⟩

theorem Inside.openedScope (h : Inside scopes d s) :
    Inside (⟨s.db, d + 1⟩ :: scopes) (d + 1) (withDelta d s) := by
  refine ⟨h.coherent, fun c hc => ?_⟩
  rcases List.mem_cons.mp hc with rfl | hc
  · exact ⟨le_rfl, .start (s.deltas d).mCurrentHeader (s.deltas d).mUpdateLastModified rfl
      (Function.update_self ..)⟩
  · exact h.opened.tracks c hc

theorem Outside.opened (h : Outside (d + 1) (withDelta d s) s') : Outside d s s' := by
  refine ⟨fun j hj => ?_, h.ledger, h.history⟩
  rw [h.deltas j (by omega)]
  exact Function.update_of_ne (by omega) _ _

theorem Outside.openedAt (h : Outside (d + 1) (withDelta d s) s') :
    s'.deltas d = s.deltas d := by
  rw [h.deltas d (by omega)]
  exact Function.update_of_ne (by omega) _ _

/-- The inner delta was not opened over the header that the outer one has. -/
def HeaderMismatch (d : ℕ) (s : LedgerState) : Prop :=
  (s.deltas (d + 1)).mPreviousHeaderValue ≠ (s.deltas d).mCurrentHeader

theorem wp_commit (h : Inside scopes (d + 1) t) (hlo : ∀ c ∈ scopes, c.lo ≤ d) :
    wp (commit d) (fun _ s' => Inside scopes d s' ∧ Outside d t s')
      (fun e s' => s' = t ∧ (e = .abort ∨
        e = .exception "unexpected header state" ∧ HeaderMismatch d t)) t := by
  simp only [commit, wp_bind, wp_get, wp_ite, wp_throw, wp_updateDelta]
  refine ⟨fun hne => ⟨trivial, Or.inr ⟨trivial, hne⟩⟩, fun _ => ⟨fun δ hδ => ?_,
    fun _ => ⟨trivial, Or.inl trivial⟩⟩⟩
  obtain ⟨δ₀, hmerge, rfl⟩ := Option.map_eq_some_iff.mp hδ
  refine ⟨⟨h.coherent, fun c hc => ⟨hlo c hc, ?_⟩⟩, fun j hj => Function.update_of_ne (by omega) _ _,
    rfl, rfl⟩
  obtain ⟨-, htracks⟩ := h.tracks c hc
  have hwf := (LedgerDelta.mergeEntries_spec (htracks.wf d (hlo c hc) (by omega))
    (htracks.wf (d + 1) (by have := hlo c hc; omega) le_rfl) hmerge).1
  refine htracks.committed (hlo c hc) rfl hmerge ?_ (fun k => ?_)
    fun j hj => Function.update_of_ne (by omega) _ _
  · simp only [Function.update_self]
    exact ⟨hwf.new, hwf.mod, hwf.disjoint⟩
  · simp only [Function.update_self]
    exact .refl k δ₀

theorem mem_foldl_eraseCached {ks : List LedgerKey}
    {cache : List (LedgerKey × Option LedgerEntry)} {v : Option LedgerEntry} :
    (k, v) ∈ ks.foldl eraseCached cache ↔ (k, v) ∈ cache ∧ k ∉ ks := by
  induction ks generalizing cache with
  | nil => simp
  | cons k' ks ih => rw [List.foldl_cons, ih, mem_eraseCached, List.mem_cons, not_or, and_assoc]

/-- The cache without what the delta `d` has touched. -/
def rolledBack (d : ℕ) (s : LedgerState) : LedgerState :=
  { s with mEntryCache := (s.deltas d).touched.foldl eraseCached s.mEntryCache }

theorem Faulted.rolledBack (h : Faulted scopes (d + 1) s) :
    Faulted scopes d (rolledBack (d + 1) s) := by
  refine ⟨fun k v hmem => h.coherent k v (mem_foldl_eraseCached.mp hmem).1,
    fun c hc k v hmem hne => ?_⟩
  obtain ⟨hmem, hnot⟩ := mem_foldl_eraseCached.mp hmem
  obtain ⟨j, hj, hje, htouched⟩ := h.tracks c hc k v hmem hne
  have hjd : j ≠ d + 1 := fun heq => hnot (heq ▸ htouched)
  exact ⟨j, hj, by omega, htouched⟩

/-- **A scope is rolled back.** What the cache has left is as it was when the scope was opened. -/
theorem Inside.rolledBack (h : Inside scopes d s)
    (ht : Faulted (⟨s.db, d + 1⟩ :: scopes) (d + 1) t) (hout : Outside (d + 1) (withDelta d s) t) :
    Inside scopes d (rolledBack (d + 1) { t with db := s.db }) := by
  refine ⟨fun k v hmem => ?_, fun c hc => ?_⟩
  · obtain ⟨hmem, hnot⟩ := mem_foldl_eraseCached.mp hmem
    rw [ht.coherent k v hmem]
    by_contra hne
    obtain ⟨j, hj, hje, htouched⟩ := ht.tracks _ List.mem_cons_self k v hmem hne
    obtain rfl : j = d + 1 := by
      have : d + 1 ≤ j := hj
      omega
    exact hnot htouched
  · obtain ⟨hlo, htracks⟩ := h.tracks c hc
    have hsame : ∀ j ≤ d, t.deltas j = s.deltas j := fun j hj => by
      rw [hout.deltas j (by omega)]
      exact Function.update_of_ne (by omega) _ _
    refine ⟨hlo, htracks.congr (fun k => rfl) (fun j hj hje => ?_) fun k j hje => ?_⟩
    · show (t.deltas j).WellFormed
      rw [hsame j hje]
      exact htracks.wf j hj hje
    · show (s.deltas j).Same k (t.deltas j)
      rw [hsame j hje]
      exact .refl k _

/-- **A scope.** When it is left without a commit, everything is as it was when it was opened; only
when the commit itself fails, after the rows were committed, it is not. -/
theorem wp_scope {x : LedgerM α} {H : LedgerState → Prop} (h : Inside scopes d s)
    (hx : wp x (fun _ t => (Inside (⟨s.db, d + 1⟩ :: scopes) (d + 1) t ∧
        Outside (d + 1) (withDelta d s) t) ∧ H t)
      (fun _ t => Faulted (⟨s.db, d + 1⟩ :: scopes) (d + 1) t ∧
        Outside (d + 1) (withDelta d s) t) (withDelta d s)) :
    wp (nested d (sqlTransaction x)) (fun _ s' => Inside scopes d s' ∧ Outside d s s')
      (fun e s' => (Inside scopes d s' ∨ (e = .abort ∨ e = .exception "unexpected header state" ∧
        ∃ t, H t ∧ HeaderMismatch d t) ∧ Faulted scopes d s') ∧ Outside d s s') s := by
  simp only [nested, openDelta, sqlTransaction, rollback, wp_bind, wp_modify, wp_tryCatch, wp_get,
    wp_throw, wp_pure]
  refine wp_mono hx (fun a t ht => ?_) fun e t ht => ⟨Or.inl ?_, ?_⟩
  · obtain ⟨⟨hin, hout⟩, hH⟩ := ht
    have hin' : Inside scopes (d + 1) t :=
      ⟨hin.coherent, fun c hc => hin.tracks c (List.mem_cons_of_mem _ hc)⟩
    refine wp_mono (wp_commit hin' fun c hc => (h.tracks c hc).1) (fun _ s' hs' => ?_)
      fun e s' hs' => ?_
    · exact ⟨hs'.1, hout.opened.trans hs'.2⟩
    · obtain ⟨rfl, he⟩ := hs'
      refine ⟨Or.inr ⟨he.imp_right fun he => ⟨he.1, s', hH, he.2⟩, hin'.faulted.rolledBack⟩, ?_⟩
      exact ⟨hout.opened.deltas, hout.opened.ledger, hout.opened.history⟩
  · exact h.rolledBack ht.1 ht.2
  · exact ⟨ht.2.opened.deltas, ht.2.opened.ledger, ht.2.opened.history⟩

/-- Code that does not return false as an operation does. -/
def Unfailing (x : LedgerM α) : Prop :=
  ∀ s, wp x (fun _ _ => True) (fun e _ => ∀ r, e ≠ .opFailed r) s

theorem Unfailing.bind {β : Type} {x : LedgerM α} {f : α → LedgerM β} (hx : Unfailing x)
    (hf : ∀ a, Unfailing (f a)) : Unfailing (x >>= f) := by
  intro s
  rw [wp_bind]
  exact wp_mono (hx s) (fun a t _ => hf a t) fun _ _ h => h

theorem Unfailing.pure (a : α) : Unfailing (pure a : LedgerM α) := fun _ => trivial

theorem WpLoaded.unfailing {x : LedgerM α} (hx : WpLoaded d x) : Unfailing x :=
  fun s => wp_mono (hx s) (fun _ _ _ => trivial) fun _ _ h => h.1

theorem unfailing_of_stored {x : LedgerM α} (hx : ∀ s, WpStored kind d k s x) : Unfailing x :=
  fun s => wp_mono (hx s) (fun _ _ _ => trivial) fun _ _ h => h.1

theorem Unfailing.nested {x : LedgerM α} (hx : Unfailing x) : Unfailing (nested d x) := by
  intro s
  simp only [Ledger.nested, openDelta, rollback, commit, wp_bind, wp_modify, wp_tryCatch, wp_throw,
    wp_pure, wp_get, wp_ite, wp_updateDelta]
  refine wp_mono (hx _) (fun _ t _ => ⟨fun _ r => by simp, fun _ => ⟨fun _ _ => trivial,
    fun _ r => by simp⟩⟩) fun _ _ h => h

theorem Unfailing.sqlTransaction {x : LedgerM α} (hx : Unfailing x) :
    Unfailing (sqlTransaction x) := by
  intro s
  simp only [Ledger.sqlTransaction, wp_bind, wp_get, wp_tryCatch, wp_modify, wp_throw]
  exact hx s

/-- A delta alone. -/
theorem KeepsCache.nested {x : LedgerM α} (hx : KeepsCache (d + 1) x) (hfail : Unfailing x) :
    KeepsCache d (nested d x) := by
  intro scopes s h
  simp only [Ledger.nested, openDelta, rollback, wp_bind, wp_modify, wp_tryCatch, wp_throw, wp_pure]
  refine wp_mono (wp_and (hx scopes (withDelta d s) h.opened) (hfail (withDelta d s)))
    (fun a t ht => ?_) fun e t ht => ?_
  · obtain ⟨⟨hin, hout⟩, -⟩ := ht
    refine wp_mono (wp_commit hin fun c hc => (h.tracks c hc).1)
      (fun _ s' hs' => ⟨hs'.1, hout.opened.trans hs'.2⟩) fun e s' hs' => ?_
    obtain ⟨rfl, he⟩ := hs'
    refine ⟨Or.inr ⟨fun r => ?_, hin.faulted.rolledBack⟩, hout.opened.deltas, hout.opened.ledger,
      hout.opened.history⟩
    rcases he with rfl | ⟨rfl, -⟩ <;> simp
  · obtain ⟨⟨hin, hout⟩, hne⟩ := ht
    have hfault : Faulted scopes (d + 1) t := hin.elim Inside.faulted And.right
    exact ⟨Or.inr ⟨hne, hfault.rolledBack⟩, hout.opened.deltas, hout.opened.ledger,
      hout.opened.history⟩

end Scopes

/-! ## Headers -/

/-- Code in the delta `d` that changes no header, and no delta around `d`. -/
def Quiet (d : ℕ) {α : Type} (x : LedgerM α) : Prop :=
  ∀ s, wp x
    (fun _ s' => (s.deltas d).SameHeader (s'.deltas d) ∧ ∀ j < d, s'.deltas j = s.deltas j)
    (fun _ s' => ∀ j < d, s'.deltas j = s.deltas j) s

section Headers

variable {kind : StoreKind} {d : ℕ} {k : LedgerKey} {α β : Type}

theorem Quiet.bind {x : LedgerM α} {f : α → LedgerM β} (hx : Quiet d x) (hf : ∀ a, Quiet d (f a)) :
    Quiet d (x >>= f) := by
  intro s
  rw [wp_bind]
  refine wp_mono (hx s) (fun a t ht => ?_) fun _ _ h => h
  refine wp_mono (hf a t) (fun _ s' hs' => ⟨?_, fun j hj => ?_⟩) fun _ s' hs' j hj => ?_
  · exact ⟨hs'.1.1.trans ht.1.1, hs'.1.2.trans ht.1.2⟩
  · exact (hs'.2 j hj).trans (ht.2 j hj)
  · exact (hs' j hj).trans (ht.2 j hj)

theorem Quiet.pure (a : α) : Quiet d (pure a : LedgerM α) :=
  fun _ => ⟨⟨rfl, rfl⟩, fun _ _ => rfl⟩

theorem Quiet.throw (e : Exit) : Quiet d (throw e : LedgerM α) := fun _ _ _ => rfl

theorem WpLoaded.quiet {x : LedgerM α} (hx : WpLoaded d x) : Quiet d x := fun s =>
  wp_mono (hx s) (fun _ _ h => ⟨h.header, fun j hj => h.delta j (by omega)⟩)
    fun _ _ h j hj => h.2.delta j (by omega)

theorem quiet_of_stored {x : LedgerM α} (hx : ∀ s, WpStored kind d k s x) : Quiet d x := by
  intro s
  refine wp_mono (hx s) (fun _ s' h => ⟨h.header, fun j hj => h.delta j (by omega)⟩)
    fun e s' h j hj => ?_
  rcases h.2 with h | h
  · exact h.delta j (by omega)
  · rw [h.deltas]

/-- When the delta is left without a commit, the one around it is as it was. -/
theorem Quiet.wp_nested {x : LedgerM α} (hx : Quiet (d + 1) x) (s : LedgerState) :
    wp (nested d x)
      (fun _ s' => (s.deltas d).SameHeader (s'.deltas d) ∧ ∀ j < d, s'.deltas j = s.deltas j)
      (fun _ s' => ∀ j ≤ d, s'.deltas j = s.deltas j) s := by
  simp only [Ledger.nested, openDelta, rollback, wp_bind, wp_modify, wp_tryCatch, wp_throw, wp_pure]
  have hopened : ∀ j ≤ d, (withDelta d s).deltas j = s.deltas j := fun j hj =>
    Function.update_of_ne (by omega) _ _
  have hinner : (withDelta d s).deltas (d + 1) = .ofHeader (s.deltas d).mCurrentHeader
      (s.deltas d).mUpdateLastModified := Function.update_self ..
  refine wp_mono (hx (withDelta d s)) (fun a t ht => ?_) fun e t ht j hj => ?_
  · obtain ⟨hheader, hbelow⟩ := ht
    have hbelow : ∀ j ≤ d, t.deltas j = s.deltas j := fun j hj =>
      (hbelow j (by omega)).trans (hopened j hj)
    rw [hinner] at hheader
    simp only [commit, wp_bind, wp_get, wp_ite, wp_throw, wp_updateDelta]
    refine ⟨fun _ => hbelow, fun _ => ⟨fun δ hδ => ⟨?_, fun j hj => ?_⟩, fun _ => hbelow⟩⟩
    · obtain ⟨δ₀, hmerge, rfl⟩ := Option.map_eq_some_iff.mp hδ
      rw [hbelow d le_rfl] at hmerge
      simp only [Function.update_self]
      exact ⟨hheader.1, (LedgerDelta.mergeEntries_header hmerge).2⟩
    · simp only [Function.update_of_ne (show j ≠ d by omega)]
      exact hbelow j (by omega)
  · exact (ht j (by omega)).trans (hopened j hj)

theorem Quiet.nested {x : LedgerM α} (hx : Quiet (d + 1) x) : Quiet d (nested d x) := fun s =>
  wp_mono (hx.wp_nested s) (fun _ _ h => h) fun _ _ h j hj => h j (by omega)

theorem Quiet.sqlTransaction {x : LedgerM α} (hx : Quiet d x) : Quiet d (sqlTransaction x) := by
  intro s
  simp only [Ledger.sqlTransaction, wp_bind, wp_get, wp_tryCatch, wp_modify, wp_throw]
  exact wp_mono (hx s) (fun _ _ h => h) fun _ _ h => h

end Headers

/-! ## Every sequence of accesses -/

/-- A load or a store, of any frame. -/
inductive Access where
  | loadAccount (accountID : AccountID)
  | loadTrustLine (accountID : AccountID) (asset : Asset)
  | loadOffer (sellerID : AccountID) (offerID : ℕ)
  | loadData (accountID : AccountID) (dataName : XString)
  | storeAccount (kind : StoreKind) (f : AccountFrame)
  | storeTrustLine (kind : StoreKind) (f : TrustFrame)
  | storeOffer (kind : StoreKind) (f : OfferFrame)
  | storeData (kind : StoreKind) (f : DataFrame)
  | storeReversedPayment (rID : ℤ)

/-- The access, in the delta `d`. -/
def Access.perform (d : ℕ) : Access → LedgerM Unit
  | .loadAccount accountID => do let _ ← AccountFrame.loadAccount d accountID
  | .loadTrustLine accountID asset => do let _ ← TrustFrame.loadTrustLine d accountID asset
  | .loadOffer sellerID offerID => do let _ ← OfferFrame.loadOffer d sellerID offerID
  | .loadData accountID dataName => do let _ ← DataFrame.loadData accountID dataName
  | .storeAccount .change f => do let _ ← f.storeChange d
  | .storeAccount .add f => do let _ ← f.storeAdd d
  | .storeAccount .delete f => f.storeDelete d
  | .storeTrustLine .change f => do let _ ← f.storeChange d
  | .storeTrustLine .add f => do let _ ← f.storeAdd d
  | .storeTrustLine .delete f => f.storeDelete d
  | .storeOffer .change f => do let _ ← f.storeChange d
  | .storeOffer .add f => do let _ ← f.storeAdd d
  | .storeOffer .delete f => f.storeDelete d
  | .storeData .change f => f.storeChange d
  | .storeData .add f => f.storeAdd d
  | .storeData .delete f => f.storeDelete d
  | .storeReversedPayment rID => ReversedPaymentFrame.storeAdd d rID

/-- Code that loads and stores. -/
inductive Session where
  | done
  | access (a : Access) (rest : Session)
  /-- an exception -/
  | throws
  /-- a delta alone: what it throws is thrown on -/
  | delta (body rest : Session)
  /-- a transaction of the database with its delta, committed or rolled back; it is rolled back too
  if an exception is thrown in it, which is caught outside of it -/
  | scope (commits : Bool) (body rest : Session)

/-- Runs the session in the delta `d`. -/
def runAccesses (d : ℕ) : Session → LedgerM Unit
  | .done => pure ()
  | .access a rest => do
    a.perform d
    runAccesses d rest
  | .throws => throw (.exception "thrown")
  | .delta body rest => do
    nested d (runAccesses (d + 1) body)
    runAccesses d rest
  | .scope commits body rest => do
    tryCatch
      (nested d (sqlTransaction (do
        runAccesses (d + 1) body
        runIf (commits = false) (throw (.exception "rolled back")))))
      fun e =>
        match e with
        | .exception _ => pure ()
        | _ => throw e
    runAccesses d rest

/-- Code in the delta `d` that loads and stores, and does nothing else. -/
structure Orderly (d : ℕ) {α : Type} (x : LedgerM α) : Prop where
  keeps : KeepsCache d x
  quiet : Quiet d x
  unfailing : Unfailing x

namespace Orderly

variable {kind : StoreKind} {d : ℕ} {k : LedgerKey} {α β : Type}

theorem bind {x : LedgerM α} {f : α → LedgerM β} (hx : Orderly d x) (hf : ∀ a, Orderly d (f a)) :
    Orderly d (x >>= f) :=
  ⟨hx.keeps.bind fun a => (hf a).keeps, hx.quiet.bind fun a => (hf a).quiet,
    hx.unfailing.bind fun a => (hf a).unfailing⟩

theorem pure (a : α) : Orderly d (pure a : LedgerM α) :=
  ⟨.pure a, .pure a, .pure a⟩

theorem throw (what : String) : Orderly d (throw (.exception what) : LedgerM α) :=
  ⟨.throw _, .throw _, fun _ r => by simp⟩

theorem of_loaded {x : LedgerM α} (hx : WpLoaded d x) : Orderly d x :=
  ⟨hx.keepsCache, hx.quiet, hx.unfailing⟩

theorem of_stored {x : LedgerM α} (hx : ∀ s, WpStored kind d k s x) : Orderly d x :=
  ⟨keepsCache_of_stored hx, quiet_of_stored hx, unfailing_of_stored hx⟩

theorem nested {x : LedgerM α} (hx : Orderly (d + 1) x) : Orderly d (nested d x) :=
  ⟨hx.keeps.nested hx.unfailing, hx.quiet.nested, hx.unfailing.nested⟩

/-- **A scope, and after it.** Its commit cannot fail, because the headers are as they were. -/
theorem scope {x : LedgerM Unit} (hx : Orderly (d + 1) x) :
    Orderly d (tryCatch (Ledger.nested d (sqlTransaction x)) fun e =>
      match e with
      | .exception _ => Pure.pure ()
      | _ => throwThe Exit e) := by
  refine ⟨fun scopes s h => ?_, fun s => ?_, fun s => ?_⟩
  · rw [wp_tryCatch]
    have hquiet := hx.quiet (withDelta d s)
    have hbody := wp_and (hx.keeps _ _ h.openedScope) hquiet
    refine wp_mono (wp_scope (H := fun t => ¬ HeaderMismatch d t) h (wp_mono hbody
      (fun _ t ht => ⟨ht.1, ?_⟩) fun _ t ht => ⟨ht.1.1.elim Inside.faulted And.right, ht.1.2⟩))
      (fun _ _ h => h) fun e s' hs' => ?_
    · have hinner : (withDelta d s).deltas (d + 1) = .ofHeader (s.deltas d).mCurrentHeader
          (s.deltas d).mUpdateLastModified := Function.update_self ..
      rw [HeaderMismatch, not_not, ht.2.1.2, hinner, ht.1.2.openedAt]
      rfl
    · obtain ⟨hin, hout⟩ := hs'
      have hin : Inside scopes d s' ∨ e = .abort ∧ Faulted scopes d s' := by
        rcases hin with hin | ⟨rfl | ⟨-, t, hnot, hmis⟩, hfault⟩
        · exact Or.inl hin
        · exact Or.inr ⟨rfl, hfault⟩
        · exact absurd hmis hnot
      cases e with
      | exception what => exact ⟨hin.resolve_right nofun, hout⟩
      | abort => exact ⟨hin.imp_right fun h => ⟨fun r => by simp, h.2⟩, hout⟩
      | opFailed r => exact ⟨Or.inl (hin.resolve_right nofun), hout⟩
      | txFailed r => exact ⟨Or.inl (hin.resolve_right nofun), hout⟩
  · rw [wp_tryCatch]
    refine wp_mono (hx.quiet.sqlTransaction.wp_nested s) (fun _ _ h => h) fun e s' hs' => ?_
    have hbelow : ∀ j < d, s'.deltas j = s.deltas j := fun j hj => hs' j (by omega)
    cases e with
    | exception what =>
      refine ⟨?_, hbelow⟩
      rw [hs' d le_rfl]
      exact ⟨rfl, rfl⟩
    | abort => exact hbelow
    | opFailed r => exact hbelow
    | txFailed r => exact hbelow
  · rw [wp_tryCatch]
    refine wp_mono (hx.unfailing.sqlTransaction.nested s) (fun _ _ _ => trivial)
      fun e s' hs' => ?_
    cases e with
    | exception what => trivial
    | abort => exact hs'
    | opFailed r => exact absurd rfl (hs' r)
    | txFailed r => exact hs'

end Orderly

theorem Access.orderly (d : ℕ) (a : Access) : Orderly d (a.perform d) := by
  have hload : ∀ {α : Type} {x : LedgerM α}, WpLoaded d x → Orderly d (do let _ ← x) :=
    fun hx => (Orderly.of_loaded hx).bind fun _ => .pure ()
  have hstore : ∀ {α : Type} {x : LedgerM α} {kind : StoreKind} {k : LedgerKey},
      (∀ s, WpStored kind d k s x) → Orderly d (do let _ ← x) :=
    fun hx => (Orderly.of_stored hx).bind fun _ => .pure ()
  cases a with
  | loadAccount id => exact hload (AccountFrame.wpLoaded_loadAccount d id)
  | loadTrustLine id asset => exact hload (TrustFrame.wpLoaded_loadTrustLine d id asset)
  | loadOffer sellerID offerID => exact hload (OfferFrame.wpLoaded_loadOffer d sellerID offerID)
  | loadData id dataName => exact hload (DataFrame.wpLoaded_loadData id dataName)
  | storeAccount kind f =>
    cases kind with
    | change => exact hstore fun _ => AccountFrame.wp_storeChange
    | add => exact hstore fun _ => AccountFrame.wp_storeAdd
    | delete => exact .of_stored fun _ => AccountFrame.wp_storeDelete
  | storeTrustLine kind f =>
    cases kind with
    | change => exact hstore fun _ => TrustFrame.wp_storeChange
    | add => exact hstore fun _ => TrustFrame.wp_storeAdd
    | delete => exact .of_stored fun _ => TrustFrame.wp_storeDelete
  | storeOffer kind f =>
    cases kind with
    | change => exact hstore fun _ => OfferFrame.wp_storeChange
    | add => exact hstore fun _ => OfferFrame.wp_storeAdd
    | delete => exact .of_stored fun _ => OfferFrame.wp_storeDelete
  | storeData kind f =>
    cases kind with
    | change => exact .of_stored fun _ => DataFrame.wp_storeChange
    | add => exact .of_stored fun _ => DataFrame.wp_storeAdd
    | delete => exact .of_stored fun _ => DataFrame.wp_storeDelete
  | storeReversedPayment rID => exact .of_stored fun _ => ReversedPaymentFrame.wp_storeAdd

theorem runAccesses_orderly (d : ℕ) (session : Session) : Orderly d (runAccesses d session) := by
  induction session generalizing d with
  | done => exact .pure ()
  | access a rest ih => exact (a.orderly d).bind fun _ => ih d
  | throws => exact .throw _
  | delta body rest ihbody ihrest => exact (ihbody (d + 1)).nested.bind fun _ => ihrest d
  | scope commits body rest ihbody ihrest =>
    refine (Orderly.scope ((ihbody (d + 1)).bind fun _ => ?_)).bind fun _ => ihrest d
    cases commits with
    | false => exact .throw _
    | true => exact .pure ()

/-- **The cache is coherent** after every sequence of loads and stores, in scopes that are nested in
any way and committed or rolled back, however it ends. -/
theorem runAccesses_coherent (d : ℕ) (session : Session) (s : LedgerState) (h : Coherent s) :
    wp (runAccesses d session) (fun _ s' => Coherent s') (fun _ s' => Coherent s') s := by
  have hin : Inside [] d s := ⟨h, fun c hc => absurd hc List.not_mem_nil⟩
  refine wp_mono ((runAccesses_orderly d session).keeps [] s hin) (fun _ _ hs' => hs'.1.coherent)
    fun _ _ hs' => ?_
  exact hs'.1.elim Inside.coherent fun hfault => hfault.2.coherent

/-- An account with 100, in ledger 2. -/
def oneAccount : LedgerState where
  db := { accounts := Std.ExtTreeMap.empty.insert 5 ⟨{ accountID := 5, balance := 100 }, 1⟩ }
  deltas := fun _ => .ofHeader { ledgerSeq := 2 }

/-- The account is changed, loaded and read again after both were rolled back; then it is deleted and
created again. -/
def changeAndRollBack : Session :=
  .access (.loadAccount 5) <|
    .scope false
      (.access (.storeAccount .change { mAccountEntry := { accountID := 5, balance := 70 } }) <|
        .access (.loadAccount 5) .done) <|
      .access (.loadAccount 5) <|
        .scope true
          (.access (.storeAccount .delete { mAccountEntry := { accountID := 5 } }) <|
            .access (.loadAccount 5) <|
              .access (.storeAccount .add { mAccountEntry := { accountID := 5, balance := 30 } })
                .done) <|
          .access (.loadAccount 5) .done

/-- The test that the account has a balance in the cache. -/
def cachedBalance (balance : ℤ) (s : LedgerState) : Bool :=
  (s.mEntryCache.lookup (.account 5)).any fun p => p.any fun e =>
    match e.data with
    | .account a => a.balance = balance
    | _ => false

theorem runAccesses_coherent_changeAndRollBack :
    Coherent oneAccount ∧ ∃ s', runAccesses 0 changeAndRollBack oneAccount = .ok () s' ∧
      cachedBalance 30 s' = true ∧ Coherent s' := by
  have h₀ : Coherent oneAccount := fun _ _ hmem => absurd hmem List.not_mem_nil
  have hruns : returns (runAccesses 0 changeAndRollBack) (fun _ s' => cachedBalance 30 s')
      oneAccount = true := by
    decide +kernel
  obtain ⟨_, s', hrun, hcached⟩ := exists_of_returns hruns
  -- the run is not to be evaluated again
  clear hruns
  generalize oneAccount = s₀ at *
  have h := runAccesses_coherent 0 changeAndRollBack s₀ h₀
  rw [wp, hrun] at h
  exact ⟨h₀, s', hrun, hcached, h⟩

end SmartCore.Ledger
