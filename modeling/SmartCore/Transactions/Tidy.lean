import SmartCore.Ledger.Cache
import SmartCore.Transactions.TransactionFrame

/-!
# Deltas and lines in order

Two things that hold of every state, and that no statement breaks, however it ends: a delta has a
key in one place only (`LedgerDelta.Tidy`), and the row of a trust line has the key that it is found
by (`KeyedLines`).
-/

namespace SmartCore.Ledger.LedgerDelta

variable {δ δ' inner : LedgerDelta}

/-- A key is at one place in the delta, and its entry is its own. -/
structure Tidy (δ : LedgerDelta) : Prop where
  wf : δ.WellFormed
  apart : ∀ k ∈ δ.mNew, k ∉ δ.mMod

namespace Tidy

theorem ofHeader (header : LedgerHeader) (b : Bool) : (LedgerDelta.ofHeader header b).Tidy :=
  ⟨.ofHeader header b, fun _ hk => absurd hk Std.ExtTreeMap.not_mem_empty⟩

theorem of_same (h : δ.Tidy) (hwf : δ.WellFormed → δ'.WellFormed) (hsame : ∀ k, δ.Same k δ') :
    δ'.Tidy :=
  ⟨hwf h.wf, fun k hnew hmod => h.apart k ((hsame k).1.mp hnew) ((hsame k).2.1.mp hmod)⟩

theorem addEntry {e : LedgerEntry} (h : δ.Tidy) (hadd : δ.addEntry e = some δ') : δ'.Tidy := by
  refine ⟨h.wf.addEntry hadd, fun k hk => ?_⟩
  have hapart := h.apart k
  have hdisjoint := h.wf.disjoint k
  unfold LedgerDelta.addEntry at hadd
  simp only at hadd
  split_ifs at hadd with hdel hin <;> cases hadd <;> grind

theorem modEntry {e : LedgerEntry} (h : δ.Tidy) (hmod : δ.modEntry e = some δ') : δ'.Tidy := by
  refine ⟨h.wf.modEntry hmod, fun k hk => ?_⟩
  have hapart := h.apart k
  unfold LedgerDelta.modEntry at hmod
  simp only at hmod
  split_ifs at hmod with hin hin' hdel <;> cases hmod <;> grind

theorem deleteEntry {k : LedgerKey} (h : δ.Tidy) (hdelete : δ.deleteEntry k = some δ') :
    δ'.Tidy := by
  refine ⟨h.wf.deleteEntry hdelete, fun k' hk' => ?_⟩
  have hapart := h.apart k'
  unfold LedgerDelta.deleteEntry at hdelete
  split_ifs at hdelete with hnew hdel <;> cases hdelete <;> grind

theorem recordPrevious (h : δ.Tidy) (other : LedgerDelta) (k : LedgerKey) :
    (δ.recordPrevious other k).Tidy :=
  h.of_same (fun hwf => hwf.recordPrevious other k) fun k' => same_recordPrevious k' k δ other

/-- What a loop of calls keeps. -/
theorem foldlM {β : Type} {op : LedgerDelta → β → Option LedgerDelta}
    (hop : ∀ δ b δ', δ.Tidy → op δ b = some δ' → δ'.Tidy) {bs : List β} (h : δ.Tidy)
    (hfold : bs.foldlM op δ = some δ') : δ'.Tidy := by
  induction bs generalizing δ with
  | nil =>
    obtain rfl := Option.some.inj hfold
    exact h
  | cons b bs ih =>
    rw [List.foldlM_cons, Option.bind_eq_bind, Option.bind_eq_some_iff] at hfold
    obtain ⟨δ₁, h₁, hfold⟩ := hfold
    exact ih (hop δ b δ₁ h h₁) hfold

theorem mergeEntries (h : δ.Tidy) (hmerge : δ.mergeEntries inner = some δ') : δ'.Tidy := by
  simp only [LedgerDelta.mergeEntries, Option.bind_eq_bind, Option.bind_eq_some_iff] at hmerge
  obtain ⟨δ₁, h₁, δ₂, h₂, h₃⟩ := hmerge
  have hdeleted : δ₁.Tidy := by
    refine h.foldlM (fun δ k δ' hδ hδ' => ?_) h₁
    obtain ⟨δ₀, h₀, rfl⟩ := Option.map_eq_some_iff.mp hδ'
    exact (hδ.deleteEntry h₀).recordPrevious inner k
  have hnew : δ₂.Tidy := hdeleted.foldlM (fun _ _ _ => Tidy.addEntry) h₂
  refine hnew.foldlM (fun δ m δ' hδ hδ' => ?_) h₃
  obtain ⟨δ₀, h₀, rfl⟩ := Option.map_eq_some_iff.mp hδ'
  exact (hδ.modEntry h₀).recordPrevious inner m.1

end Tidy

end SmartCore.Ledger.LedgerDelta

namespace SmartCore.Transactions

open SmartCore.Ledger

variable {s t : LedgerState} {e : ℕ} {α β : Type}

/-! ## States -/

/-- The keys of the lines are in their rows, as they are when a line is added. -/
def KeyedLines (s : LedgerState) : Prop :=
  ∀ (id : AccountID) (asset : Asset) (row : Row TrustLineEntry),
    s.db.trustlines[LedgerKey.trustLine id asset]? = some row →
    row.entry.accountID = id ∧ row.entry.asset = asset

/-- The lines and the deltas up to `e` are in order. -/
structure Tidy (e : ℕ) (s : LedgerState) : Prop where
  lines : KeyedLines s
  deltas : ∀ j ≤ e, (s.deltas j).Tidy

theorem KeyedLines.of_eq (h : KeyedLines s) (heq : t.db.trustlines = s.db.trustlines) :
    KeyedLines t := by
  unfold KeyedLines
  rw [heq]
  exact h

theorem KeyedLines.insert {k : LedgerKey} {row : Row TrustLineEntry} (h : KeyedLines s)
    (hk : k = .trustLine row.entry.accountID row.entry.asset)
    (heq : t.db.trustlines = s.db.trustlines.insert k row) : KeyedLines t := by
  intro id asset row' hrow
  rw [heq, Std.ExtTreeMap.getElem?_insert] at hrow
  split_ifs at hrow with hkey
  · have hkey : LedgerKey.trustLine row.entry.accountID row.entry.asset = .trustLine id asset :=
      hk.symm.trans (compare_eq_iff_eq.mp hkey)
    cases hrow
    exact ⟨(LedgerKey.trustLine.inj hkey).1, (LedgerKey.trustLine.inj hkey).2⟩
  · exact h id asset row' hrow

theorem Tidy.of_eq (h : Tidy e s) (hlines : t.db.trustlines = s.db.trustlines)
    (hdeltas : t.deltas = s.deltas) : Tidy e t := by
  refine ⟨h.lines.of_eq hlines, ?_⟩
  rw [hdeltas]
  exact h.deltas

theorem Tidy.update (h : Tidy e s) {d : ℕ} {δ : LedgerDelta} (hδ : d ≤ e → δ.Tidy)
    (hlines : t.db.trustlines = s.db.trustlines)
    (hdeltas : t.deltas = Function.update s.deltas d δ) : Tidy e t := by
  refine ⟨h.lines.of_eq hlines, fun j hj => ?_⟩
  rw [hdeltas]
  by_cases hjd : j = d
  · subst hjd
    rw [Function.update_self]
    exact hδ hj
  · rw [Function.update_of_ne hjd]
    exact h.deltas j hj

theorem Tidy.weaken {e' : ℕ} (h : Tidy e s) (he : e' ≤ e) : Tidy e' s :=
  ⟨h.lines, fun j hj => h.deltas j (hj.trans he)⟩

/-- The delta of a scope has nothing in it. -/
theorem Tidy.opened {d : ℕ} (h : Tidy d s) : Tidy (d + 1) (withDelta d s) := by
  refine ⟨h.lines.of_eq rfl, fun j hj => ?_⟩
  by_cases hjd : j = d + 1
  · subst hjd
    rw [show (withDelta d s).deltas (d + 1) = .ofHeader (s.deltas d).mCurrentHeader
      (s.deltas d).mUpdateLastModified from Function.update_self _ _ _]
    exact .ofHeader _ _
  · rw [show (withDelta d s).deltas j = s.deltas j from Function.update_of_ne hjd _ _]
    exact h.deltas j (by omega)

theorem Tidy.loaded {d : ℕ} (h : Tidy e s) (hs : Loaded d s t) : Tidy e t := by
  refine ⟨h.lines.of_eq (by rw [hs.db]), fun j hj => ?_⟩
  by_cases hjd : j = d
  · subst hjd
    exact (h.deltas j hj).of_same hs.wf hs.same
  · rw [hs.delta j hjd]
    exact h.deltas j hj

/-! ## Code -/

/-- Code that keeps them in order, however it ends. -/
def KeepsTidy (x : LedgerM α) : Prop :=
  ∀ e s, Tidy e s → wp x (fun _ t => Tidy e t) (fun _ t => Tidy e t) s

namespace KeepsTidy

variable {x y : LedgerM α} {d : ℕ}

theorem pure (a : α) : KeepsTidy (Pure.pure a : LedgerM α) := fun _ _ h => h

theorem throw (e : Exit) : KeepsTidy (throwThe Exit e : LedgerM α) := fun _ _ h => h

theorem get : KeepsTidy (get : LedgerM LedgerState) := fun _ _ h => h

theorem modify {f : LedgerState → LedgerState} (h : ∀ s, (f s).db.trustlines = s.db.trustlines)
    (h' : ∀ s, (f s).deltas = s.deltas) : KeepsTidy (modify f) :=
  fun _ s hs => hs.of_eq (h s) (h' s)

theorem bind {f : α → LedgerM β} (hx : KeepsTidy x) (hf : ∀ a, KeepsTidy (f a)) :
    KeepsTidy (x >>= f) := by
  intro e s h
  rw [wp_bind]
  exact wp_mono (hx e s h) (fun a t ht => hf a e t ht) fun _ _ ht => ht

theorem ite {p : Prop} [Decidable p] (hx : KeepsTidy x) (hy : KeepsTidy y) :
    KeepsTidy (if p then x else y) := by
  split_ifs
  · exact hx
  · exact hy

theorem updateDelta {f : LedgerDelta → Option LedgerDelta}
    (hf : ∀ δ δ', δ.Tidy → f δ = some δ' → δ'.Tidy) : KeepsTidy (updateDelta d f) := by
  intro e s h
  rw [wp_updateDelta]
  exact ⟨fun δ hδ => h.update (fun hd => hf _ δ (h.deltas d hd) hδ) rfl rfl, fun _ => h⟩

theorem addEntry (e : LedgerEntry) : KeepsTidy (Ledger.updateDelta d (·.addEntry e)) :=
  updateDelta fun _ _ => LedgerDelta.Tidy.addEntry

theorem modEntry (e : LedgerEntry) : KeepsTidy (Ledger.updateDelta d (·.modEntry e)) :=
  updateDelta fun _ _ => LedgerDelta.Tidy.modEntry

theorem deleteEntry (k : LedgerKey) : KeepsTidy (Ledger.updateDelta d (·.deleteEntry k)) :=
  updateDelta fun _ _ => LedgerDelta.Tidy.deleteEntry

theorem touch (d lastModified : ℕ) : KeepsTidy (touch d lastModified) :=
  get.bind fun _ => (ite (pure _) (throw _)).bind fun _ => pure _

theorem flushCachedEntry (k : LedgerKey) : KeepsTidy (flushCachedEntry k) :=
  modify (fun _ => rfl) fun _ => rfl

theorem setHeader (header : LedgerHeader) : KeepsTidy (setHeader d header) := by
  refine updateDelta fun δ δ' h hδ => ?_
  obtain rfl := Option.some.inj hδ
  exact h.of_same (fun hwf => ⟨hwf.new, hwf.mod, hwf.disjoint⟩) fun k => .refl k δ

theorem commit : KeepsTidy (commit d) := by
  intro e s h
  simp only [Ledger.commit, wp_bind, wp_get, wp_ite, wp_throw]
  refine ⟨fun _ => h, fun _ => updateDelta (fun δ δ' hδ hδ' => ?_) e s h⟩
  obtain ⟨δ₀, hmerge, rfl⟩ := Option.map_eq_some_iff.mp hδ'
  exact (hδ.mergeEntries hmerge).of_same (fun hwf => ⟨hwf.new, hwf.mod, hwf.disjoint⟩)
    fun k => .refl k δ₀

/-! Trust lines are inserted at their keys. -/

theorem trustLine_storeChange (f : TrustFrame) : KeepsTidy (f.storeChange d) := by
  rw [TrustFrame.storeChange]
  refine ite (throw _) ((flushCachedEntry _).bind fun _ => (touch d _).bind fun seq e s h => ?_)
  simp only [wp_bind, wp_get]
  cases hrow : s.db.trustlines[TrustFrame.getKey { f with lastModified := seq }]? with
  | none => exact h
  | some row =>
    refine ((modEntry _).bind fun _ => pure _) e _ ⟨h.lines.insert ?_ rfl, h.deltas⟩
    obtain ⟨hid, hasset⟩ := h.lines _ _ row hrow
    show LedgerKey.trustLine _ _ = .trustLine row.entry.accountID row.entry.asset
    rw [hid, hasset]

theorem trustLine_storeAdd (f : TrustFrame) : KeepsTidy (f.storeAdd d) := by
  rw [TrustFrame.storeAdd]
  refine ite (throw _) ((flushCachedEntry _).bind fun _ => (touch d _).bind fun seq e s h => ?_)
  simp only [wp_bind, wp_get]
  cases s.db.trustlines[TrustFrame.getKey { f with lastModified := seq }]? with
  | some row => exact h
  | none =>
    refine ((addEntry _).bind fun _ => pure _) e _ ⟨h.lines.insert ?_ rfl, h.deltas⟩
    rfl

theorem trustLine_storeDelete (f : TrustFrame) : KeepsTidy (f.storeDelete d) := by
  refine (flushCachedEntry _).bind fun _ => bind (fun e s h => ⟨?_, h.deltas⟩) fun _ =>
    deleteEntry _
  intro id asset row hrow
  dsimp only at hrow
  rw [Std.ExtTreeMap.getElem?_erase] at hrow
  split_ifs at hrow
  exact h.lines id asset row hrow

/-! The other tables. -/

theorem applySigners (f : AccountFrame) : KeepsTidy f.applySigners := by
  rw [AccountFrame.applySigners]
  refine get.bind fun s => ?_
  split
  · exact throw _
  · exact ite (throw _) (ite (bind (modify (fun _ => rfl) fun _ => rfl) fun _ =>
      flushCachedEntry _) (pure _))

theorem account_storeChange (f : AccountFrame) : KeepsTidy (f.storeChange d) := by
  rw [AccountFrame.storeChange]
  refine (ite (pure _) (throw _)).bind fun _ => (touch d _).bind fun seq =>
    (flushCachedEntry _).bind fun _ => get.bind fun s => ?_
  split
  · exact throw _
  · exact bind (modify (fun _ => rfl) fun _ => rfl) fun _ => (modEntry _).bind fun _ =>
      (ite (applySigners _) (pure _)).bind fun _ => pure _

theorem account_storeAdd (f : AccountFrame) : KeepsTidy (f.storeAdd d) := by
  rw [AccountFrame.storeAdd]
  refine (ite (pure _) (throw _)).bind fun _ => (touch d _).bind fun seq =>
    (flushCachedEntry _).bind fun _ => get.bind fun s => ?_
  split
  · exact throw _
  · exact bind (modify (fun _ => rfl) fun _ => rfl) fun _ => (addEntry _).bind fun _ =>
      (ite (applySigners _) (pure _)).bind fun _ => pure _

theorem account_storeDelete (f : AccountFrame) : KeepsTidy (f.storeDelete d) :=
  (flushCachedEntry _).bind fun _ => bind (modify (fun _ => rfl) fun _ => rfl) fun _ =>
    deleteEntry _

theorem reversedPayment_storeAdd (rID : ℤ) : KeepsTidy (ReversedPaymentFrame.storeAdd d rID) := by
  rw [ReversedPaymentFrame.storeAdd]
  refine (touch d _).bind fun seq => get.bind fun s => ?_
  split
  · exact throw _
  · exact bind (modify (fun _ => rfl) fun _ => rfl) fun _ => addEntry _

theorem offer_storeDelete (f : OfferFrame) : KeepsTidy (f.storeDelete d) :=
  bind (modify (fun _ => rfl) fun _ => rfl) fun _ => deleteEntry _

theorem offer_storeChange (f : OfferFrame) : KeepsTidy (f.storeChange d) := by
  rw [OfferFrame.storeChange]
  refine (touch d _).bind fun seq => ite (throw _) (get.bind fun s => ?_)
  split
  · exact throw _
  · exact bind (modify (fun _ => rfl) fun _ => rfl) fun _ => (modEntry _).bind fun _ => pure _

theorem offer_storeAdd (f : OfferFrame) : KeepsTidy (f.storeAdd d) := by
  rw [OfferFrame.storeAdd]
  refine (touch d _).bind fun seq => ite (throw _) (get.bind fun s => ?_)
  split
  · exact throw _
  · exact bind (modify (fun _ => rfl) fun _ => rfl) fun _ => (addEntry _).bind fun _ => pure _

theorem data_storeDelete (f : DataFrame) : KeepsTidy (f.storeDelete d) :=
  bind (modify (fun _ => rfl) fun _ => rfl) fun _ => deleteEntry _

theorem data_storeChange (f : DataFrame) : KeepsTidy (f.storeChange d) := by
  rw [DataFrame.storeChange]
  refine (touch d _).bind fun seq => get.bind fun s => ?_
  split
  · exact throw _
  · exact bind (modify (fun _ => rfl) fun _ => rfl) fun _ => modEntry _

theorem data_storeAdd (f : DataFrame) : KeepsTidy (f.storeAdd d) := by
  rw [DataFrame.storeAdd]
  refine (touch d _).bind fun seq => get.bind fun s => ?_
  split
  · exact throw _
  · exact bind (modify (fun _ => rfl) fun _ => rfl) fun _ => addEntry _

end KeepsTidy

end SmartCore.Transactions
