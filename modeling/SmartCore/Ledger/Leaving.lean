import SmartCore.Ledger.Cache

/-!
# Leaving a scope

When an offer has crossed others it credits its source in the delta around its scope, and then stores
the rest of itself inside. If that fails, the rows go back, but the delta around the scope keeps the
change. The cache is still in order then: since the source was written, nothing has been loaded.

`Leaving` is what holds while nothing is loaded any more. The entries that the cache still has are as
they were when the scope was opened, or the inner delta has touched them.
-/

namespace SmartCore.Ledger

/-- About to leave the scope of the delta `d + 1`, which was opened over `base`. -/
structure Leaving (base : Database) (scopes : List Scope) (d : ℕ) (s : LedgerState) : Prop where
  coherent : Coherent s
  tracks : ∀ c ∈ scopes, c.lo ≤ d ∧ Tracks c.base c.lo (d + 1) s
  cache : CacheTracks base (d + 1) (d + 1) s

/-- What is left of it when the code has stopped. -/
structure LeftOver (base : Database) (d : ℕ) (s : LedgerState) : Prop where
  coherent : Coherent s
  cache : CacheTracks base (d + 1) (d + 1) s

/-- Outside the delta `d + 1` entries are only changed, in the delta `d`. -/
structure Grows (d : ℕ) (s s' : LedgerState) : Prop where
  deltas : ∀ j < d, s'.deltas j = s.deltas j
  new : ∀ k, k ∈ (s'.deltas d).mNew ↔ k ∈ (s.deltas d).mNew
  deleted : ∀ k, k ∈ (s'.deltas d).mDelete ↔ k ∈ (s.deltas d).mDelete
  touched : ∀ k, k ∈ (s.deltas d).touched → k ∈ (s'.deltas d).touched
  wf : (s.deltas d).WellFormed → (s'.deltas d).WellFormed
  ledger : s'.mCurrentLedger = s.mCurrentLedger
  history : s'.txhistory = s.txhistory

section Leaving

variable {scopes : List Scope} {base : Database} {kind : StoreKind} {d e : ℕ} {k : LedgerKey}
  {s s' t : LedgerState} {α β : Type}

theorem Leaving.leftOver (h : Leaving base scopes d s) : LeftOver base d s := ⟨h.coherent, h.cache⟩

theorem Grows.refl (d : ℕ) (s : LedgerState) : Grows d s s :=
  ⟨fun _ _ => rfl, fun _ => Iff.rfl, fun _ => Iff.rfl, fun _ h => h, fun h => h, rfl, rfl⟩

theorem Grows.trans (h : Grows d s t) (h' : Grows d t s') : Grows d s s' where
  deltas j hj := (h'.deltas j hj).trans (h.deltas j hj)
  new k := (h'.new k).trans (h.new k)
  deleted k := (h'.deleted k).trans (h.deleted k)
  touched k hk := h'.touched k (h.touched k hk)
  wf hwf := h'.wf (h.wf hwf)
  ledger := h'.ledger.trans h.ledger
  history := h'.history.trans h.history

theorem Grows.of_outside (h : Outside (d + 1) s s') : Grows d s s' := by
  have hd : s'.deltas d = s.deltas d := h.deltas d (by omega)
  refine ⟨fun j hj => h.deltas j (by omega), ?_, ?_, ?_, ?_, h.ledger, h.history⟩
  · rw [hd]
    exact fun _ => Iff.rfl
  · rw [hd]
    exact fun _ => Iff.rfl
  · rw [hd]
    exact fun _ hk => hk
  · rw [hd]
    exact fun hwf => hwf

/-- The rows are as they were, and the delta `e` has grown. -/
theorem Tracks.grown {lo : ℕ} (h : Tracks base lo e s) (hlo : lo ≤ e)
    (hrow : ∀ k, s'.db.select k = s.db.select k) (hg : Grows e s s') : Tracks base lo e s' := by
  have htouched : ∀ k j, j ≤ e → k ∈ (s.deltas j).touched → k ∈ (s'.deltas j).touched := by
    intro k j hje hk
    by_cases hj : j = e
    · subst hj
      exact hg.touched k hk
    · rw [hg.deltas j (by omega)]
      exact hk
  refine ⟨?_, ?_, ?_, ?_⟩
  · intro j hj hje
    by_cases heq : j = e
    · subst heq
      exact hg.wf (h.wf j hj hje)
    · rw [hg.deltas j (by omega)]
      exact h.wf j hj hje
  · intro k hk
    rw [hrow]
    exact h.untouched k fun j hj hje hmem => hk j hj hje (htouched k j hje hmem)
  · intro k j hj hje hk
    have hk' : k ∈ (s.deltas j).mNew := by
      by_cases heq : j = e
      · subst heq
        exact (hg.new k).mp hk
      · rwa [hg.deltas j (by omega)] at hk
    refine (h.new k j hj hje hk').imp_left fun hi => ?_
    obtain ⟨i, hi, hij, hmem⟩ := hi
    exact ⟨i, hi, hij, htouched k i (by omega) hmem⟩
  · intro k j hj hje hk hnot
    have hk' : k ∈ (s.deltas j).mDelete := by
      by_cases heq : j = e
      · subst heq
        exact (hg.deleted k).mp hk
      · rwa [hg.deltas j (by omega)] at hk
    rw [hrow]
    exact h.deleted k j hj hje hk' fun i hi hie hmem => hnot i hi hie (htouched k i hie hmem)

/-! ## Stores -/

/-- A store that may be made while leaving: a change, or of an entry that is not read through the
cache. -/
def Leaves (d : ℕ) (kind : StoreKind) (e : ℕ) (k : LedgerKey) : Prop :=
  kind = .change ∧ (e = d ∨ e = d + 1) ∨ e = d + 1 ∧ ∀ db : Database, db.select k = none

theorem CacheTracks.stored (h : CacheTracks base (d + 1) (d + 1) s) (hs : Stored kind e k s s')
    (he : Leaves d kind e k) : CacheTracks base (d + 1) (d + 1) s' := by
  intro k' v hmem hne
  obtain ⟨hmem, hself⟩ := hs.cache k' v hmem
  have hrow : s'.db.select k' = s.db.select k' := by
    by_cases hk : k' = k
    · rw [hk, hself hk]
    · exact hs.row k' hk
  obtain ⟨j, hj, hje, htouched⟩ := h k' v hmem (hrow ▸ hne)
  refine ⟨j, hj, hje, ?_⟩
  obtain rfl : j = d + 1 := by omega
  by_cases hed : e = d + 1
  · subst hed
    by_cases hk : k' = k
    · subst hk
      rcases he with ⟨rfl, -⟩ | ⟨-, hnone⟩
      · exact (hs.change rfl).2.2.1
      · rw [hnone, hnone] at hne
        exact absurd rfl hne
    · exact (hs.same k' hk).touched.mpr htouched
  · rw [hs.delta (d + 1) (fun heq => hed heq.symm)]
    exact htouched

theorem CacheTracks.halted (h : CacheTracks base (d + 1) (d + 1) s) (hs : Halted k s s') :
    CacheTracks base (d + 1) (d + 1) s' := by
  intro k' v hmem hne
  obtain ⟨hmem, hself⟩ := hs.cache k' v hmem
  have hrow : s'.db.select k' = s.db.select k' := by
    by_cases hk : k' = k
    · rw [hk, hself hk]
    · exact hs.row k' hk
  rw [hs.deltas]
  exact h k' v hmem (hrow ▸ hne)

theorem Grows.stored (hs : Stored kind e k s s') (he : Leaves d kind e k) : Grows d s s' := by
  by_cases hed : e = d
  · subst hed
    have hchange : kind = .change := by
      rcases he with ⟨hkind, -⟩ | ⟨hlt, -⟩
      · exact hkind
      · omega
    obtain ⟨hnew, hdel, hin, -⟩ := hs.change hchange
    refine ⟨fun j hj => hs.delta j (by omega), ?_, ?_, ?_, hs.wf, hs.ledger, hs.history⟩
    · intro k'
      by_cases hk : k' = k
      · rw [hk]
        exact hnew
      · exact (hs.same k' hk).1
    · intro k'
      by_cases hk : k' = k
      · rw [hk]
        exact hdel
      · exact (hs.same k' hk).2.2
    · intro k' hmem
      by_cases hk : k' = k
      · rw [hk]
        exact hin
      · exact (hs.same k' hk).touched.mpr hmem
  · have he' : e = d + 1 := by
      rcases he with ⟨-, he | he⟩ | ⟨he, -⟩
      · exact absurd he hed
      · exact he
      · exact he
    refine Grows.of_outside ⟨fun j hj => hs.delta j (by omega), hs.ledger, hs.history⟩

theorem Leaving.stored (h : Leaving base scopes d s) (hs : Stored kind e k s s')
    (he : Leaves d kind e k) : Leaving base scopes d s' := by
  refine ⟨h.coherent.stored hs, ?_, h.cache.stored hs he⟩
  intro c hc
  obtain ⟨hlo, htracks⟩ := h.tracks c hc
  refine ⟨hlo, ?_⟩
  rcases he with ⟨hkind, rfl | rfl⟩ | ⟨rfl, -⟩
  · exact htracks.stored hs hlo (by omega) (Or.inr hkind)
  · exact htracks.stored hs (by omega) le_rfl (Or.inl rfl)
  · exact htracks.stored hs (by omega) le_rfl (Or.inl rfl)

theorem LeftOver.stored (h : LeftOver base d s) (hs : Stored kind e k s s')
    (he : Leaves d kind e k) : LeftOver base d s' :=
  ⟨h.coherent.stored hs, h.cache.stored hs he⟩

theorem LeftOver.halted (h : LeftOver base d s) (hs : Halted k s s') : LeftOver base d s' :=
  ⟨h.coherent.halted hs, h.cache.halted hs⟩

theorem Grows.halted (hs : Halted k s s') : Grows d s s' :=
  .of_outside ⟨fun j _ => by rw [hs.deltas], hs.ledger, hs.history⟩

/-! ## Code -/

/-- Code that keeps the cache in order while the scope is left. -/
def KeepsLeaving (d : ℕ) (x : LedgerM α) : Prop :=
  ∀ base scopes s, Leaving base scopes d s →
    wp x (fun _ s' => Leaving base scopes d s' ∧ Grows d s s')
      (fun _ s' => LeftOver base d s' ∧ Grows d s s') s

theorem keepsLeaving_of_stored {x : LedgerM α} (hx : ∀ s, WpStored kind e k s x)
    (he : Leaves d kind e k) : KeepsLeaving d x := by
  intro base scopes s h
  refine wp_mono (hx s) (fun _ _ hs => ⟨h.stored hs he, .stored hs he⟩) fun _ _ hs => ?_
  rcases hs with ⟨-, hs | hs⟩
  · exact ⟨h.leftOver.stored hs he, .stored hs he⟩
  · exact ⟨h.leftOver.halted hs, .halted hs⟩

theorem Grows.opened (h : Outside (d + 1) (withDelta d s) t) : Grows d s t := by
  refine .of_outside ⟨fun j hj => ?_, h.ledger, h.history⟩
  rw [h.deltas j hj]
  exact Function.update_of_ne (by omega) _ _

/-- **The scope is rolled back**, whatever the delta around it keeps. -/
theorem LeftOver.rolledBack (h : Inside scopes d s) (ht : LeftOver s.db d t) (hg : Grows d s t) :
    Inside scopes d (rolledBack (d + 1) { t with db := s.db }) := by
  refine ⟨?_, ?_⟩
  · intro k v hmem
    obtain ⟨hmem, hnot⟩ := mem_foldl_eraseCached.mp hmem
    rw [ht.coherent k v hmem]
    by_contra hne
    obtain ⟨j, hj, hje, htouched⟩ := ht.cache k v hmem hne
    obtain rfl : j = d + 1 := by omega
    exact hnot htouched
  · intro c hc
    obtain ⟨hlo, htracks⟩ := h.tracks c hc
    refine ⟨hlo, htracks.grown hlo (fun k => rfl) ?_⟩
    exact ⟨hg.deltas, hg.new, hg.deleted, hg.touched, hg.wf, hg.ledger, hg.history⟩

theorem wp_sqlTransaction {x : LedgerM α} {Q : α → LedgerState → Prop}
    {E : Exit → LedgerState → Prop} :
    wp (sqlTransaction x) Q E s ↔ wp x Q (fun e t => E e { t with db := s.db }) s := by
  simp only [sqlTransaction, wp_bind, wp_get, wp_tryCatch, wp_modify, wp_throw]

/-- **A scope is left**, in order or not. -/
theorem wp_leave {x : LedgerM α} (h : Inside scopes d s)
    (hx : wp x (fun _ t => Leaving s.db scopes d t ∧ Grows d s t)
      (fun _ t => LeftOver s.db d t ∧ Grows d s t) (withDelta d s)) :
    wp (nested d (sqlTransaction x)) (fun _ s' => Inside scopes d s' ∧ Outside d s s')
      (fun e s' => (Inside scopes d s' ∨ (∀ r, e ≠ .opFailed r) ∧ Faulted scopes d s') ∧
        Outside d s s') s := by
  simp only [nested, openDelta, sqlTransaction, rollback, wp_bind, wp_modify, wp_tryCatch, wp_get,
    wp_throw, wp_pure]
  refine wp_mono hx (fun a t ht => ?_) fun e t ht => ?_
  · obtain ⟨hleaving, hg⟩ := ht
    have hin : Inside scopes (d + 1) t :=
      ⟨hleaving.coherent, fun c hc => ⟨by have := (hleaving.tracks c hc).1; omega,
        (hleaving.tracks c hc).2⟩⟩
    refine wp_mono (wp_commit hin fun c hc => (h.tracks c hc).1) (fun _ s' hs' => ?_)
      fun e s' hs' => ?_
    · exact ⟨hs'.1, Outside.trans ⟨hg.deltas, hg.ledger, hg.history⟩ hs'.2⟩
    · -- the commit of the delta fails, after that of the rows
      obtain ⟨rfl, he⟩ := hs'
      refine ⟨Or.inr ⟨fun r => ?_, hin.faulted.rolledBack⟩, hg.deltas, hg.ledger, hg.history⟩
      rcases he with rfl | ⟨rfl, -⟩ <;> simp
  · exact ⟨Or.inl (LeftOver.rolledBack h ht.1 ht.2), ht.2.deltas, ht.2.ledger, ht.2.history⟩

/-- From here on nothing is loaded. -/
theorem Inside.leaving (h : Inside scopes d s) (ht : Inside (⟨base, d + 1⟩ :: scopes) (d + 1) t) :
    Leaving base scopes d t :=
  ⟨ht.coherent, fun c hc => ⟨(h.tracks c hc).1, (ht.tracks c (List.mem_cons_of_mem _ hc)).2⟩,
    (ht.tracks _ List.mem_cons_self).2.cacheTracks⟩

theorem Faulted.leftOver (h : Faulted (⟨base, d + 1⟩ :: scopes) (d + 1) t) : LeftOver base d t :=
  ⟨h.coherent, h.tracks _ List.mem_cons_self⟩

end Leaving

end SmartCore.Ledger
