import SmartCore.Transactions.AllOrNothing

/-!
# What deltas know of reversed payments

The table of reversed payments is not read through the cache. What links it to the bucket list is
the delta of the ledger: its live entries have to be the payments that were marked, and none may be
among its dead ones. A program keeps that for its own delta (`Program.keepsNoted`), also where an
operation fails in it and the failure is caught; and so does a commit into the delta around it.
-/

namespace SmartCore.Ledger.LedgerDelta

variable {δ δ' inner : LedgerDelta} {k : LedgerKey}

/-- The delta has the key as a new entry, if it has it. -/
def OnlyNew (k : LedgerKey) (δ : LedgerDelta) : Prop := k ∉ δ.mMod ∧ k ∉ δ.mDelete

theorem OnlyNew.ofHeader (header : LedgerHeader) (b : Bool) :
    OnlyNew k (LedgerDelta.ofHeader header b) :=
  ⟨Std.ExtTreeMap.not_mem_empty, Std.ExtTreeMap.not_mem_empty⟩

theorem OnlyNew.same (h : OnlyNew k δ) (hs : Same k δ δ') : OnlyNew k δ' :=
  ⟨fun hk => h.1 (hs.2.1.mp hk), fun hk => h.2 (hs.2.2.mp hk)⟩

/-- A new entry that is not there as another is new. -/
theorem addEntry_onlyNew {e : LedgerEntry} (h : OnlyNew (LedgerEntryKey e) δ)
    (hadd : δ.addEntry e = some δ') :
    OnlyNew (LedgerEntryKey e) δ' ∧ LedgerEntryKey e ∈ δ'.mNew := by
  obtain ⟨hmod, hdelete⟩ := h
  unfold addEntry at hadd
  simp only [if_neg hdelete] at hadd
  split_ifs at hadd with hin
  cases hadd
  exact ⟨⟨hmod, hdelete⟩, Std.ExtTreeMap.mem_insert_self⟩

theorem mergeNew_onlyNew {es : List LedgerEntry} (h : OnlyNew k δ)
    (hmerge : δ.mergeNew es = some δ') :
    OnlyNew k δ' ∧ (k ∈ δ'.mNew ↔ k ∈ δ.mNew ∨ k ∈ es.map LedgerEntryKey) := by
  induction es generalizing δ with
  | nil =>
    obtain rfl := Option.some.inj hmerge
    simpa using h
  | cons e es ih =>
    simp only [mergeNew, List.foldlM_cons, Option.bind_eq_bind, Option.bind_eq_some_iff] at hmerge
    obtain ⟨δ₁, h₁, hmerge⟩ := hmerge
    by_cases hk : k = LedgerEntryKey e
    · subst hk
      obtain ⟨honly, hnew⟩ := addEntry_onlyNew h h₁
      obtain ⟨honly', hiff⟩ := ih honly hmerge
      refine ⟨honly', ?_⟩
      rw [hiff]
      simp [hnew]
    · have hsame := addEntry_other h₁ hk
      obtain ⟨honly, hiff⟩ := ih (h.same hsame) hmerge
      refine ⟨honly, ?_⟩
      rw [hiff, hsame.1]
      simp [hk]

/-- **A key that is only new in both deltas is only new in the merged one.** -/
theorem mergeEntries_onlyNew (hδ : δ.WellFormed) (hinner : inner.WellFormed) (h : OnlyNew k δ)
    (h' : OnlyNew k inner) (hmerge : δ.mergeEntries inner = some δ') :
    OnlyNew k δ' ∧ (k ∈ δ'.mNew ↔ k ∈ δ.mNew ∨ k ∈ inner.mNew) := by
  simp only [mergeEntries, Option.bind_eq_bind, Option.bind_eq_some_iff] at hmerge
  obtain ⟨δ₁, h₁, δ₂, h₂, h₃⟩ := hmerge
  obtain ⟨hwf₁, hsame₁, -⟩ := mergeDeleted_spec (k := k) hδ h₁
  rw [Std.ExtTreeMap.mem_keys] at hsame₁
  have hsame₁ := hsame₁ h'.2
  obtain ⟨hwf₂, -⟩ := mergeNew_spec (k := k) hwf₁ h₂
  obtain ⟨honly, hiff⟩ := mergeNew_onlyNew (h.same hsame₁) h₂
  rw [List.map_map, hsame₁.1] at hiff
  have hnewkeys : k ∈ List.map (LedgerEntryKey ∘ fun row => row.2) inner.mNew.toList ↔
      k ∈ inner.mNew := mem_map_key_toList hinner.new
  rw [hnewkeys] at hiff
  obtain ⟨-, -, -, -, -, hsame₃⟩ := mergeModified_spec (k := k) hwf₂ h₃
  rw [mem_map_key_toList hinner.mod] at hsame₃
  have hsame₃ := hsame₃ h'.1
  exact ⟨honly.same hsame₃, hsame₃.1.trans hiff⟩

end SmartCore.Ledger.LedgerDelta

namespace SmartCore.Transactions

open SmartCore.Ledger

variable {c : Custody} {m : Mode} {d e : ℕ} {s t u : LedgerState} {α β : Type}

/-! ## States and steps -/

/-- Reversed payments are only new in the deltas. -/
structure Noting (e : ℕ) (s : LedgerState) : Prop where
  tidy : Tidy e s
  onlyNew : ∀ j ≤ e, ∀ rID, (s.deltas j).OnlyNew (.reversedPayment rID)

/-- The payments that were marked are those that are new in the delta. -/
structure Noted (e : ℕ) (s t : LedgerState) : Prop where
  tidy : Tidy e t
  kept : ∀ rID ∈ s.db.reversedPayment, rID ∈ t.db.reversedPayment
  outside : ∀ j < e, ∀ rID, (s.deltas j).Same (.reversedPayment rID) (t.deltas j)
  onlyNew : ∀ rID, (t.deltas e).OnlyNew (.reversedPayment rID)
  new : ∀ rID, .reversedPayment rID ∈ (t.deltas e).mNew ↔
    .reversedPayment rID ∈ (s.deltas e).mNew ∨
      rID ∈ t.db.reversedPayment ∧ rID ∉ s.db.reversedPayment

theorem Noted.noting (h : Noted e s t) (hs : Noting e s) : Noting e t := by
  refine ⟨h.tidy, fun j hj rID => ?_⟩
  rcases hj.lt_or_eq with hj | rfl
  · exact (hs.onlyNew j hj.le rID).same (h.outside j hj rID)
  · exact h.onlyNew rID

theorem Noted.trans (h : Noted e s t) (h' : Noted e t u) : Noted e s u := by
  refine ⟨h'.tidy, fun rID hr => h'.kept rID (h.kept rID hr),
    fun j hj rID => (h.outside j hj rID).trans (h'.outside j hj rID), h'.onlyNew, fun rID => ?_⟩
  have hkept := h.kept rID
  have hkept' := h'.kept rID
  rw [h'.new, h.new]
  tauto

/-- No payment is marked, and the deltas have none that they did not have. -/
theorem Noted.of_same (hs : Noting e s) (ht : Tidy e t)
    (hmarks : ∀ rID, rID ∈ t.db.reversedPayment ↔ rID ∈ s.db.reversedPayment)
    (hsame : ∀ j ≤ e, ∀ rID, (s.deltas j).Same (.reversedPayment rID) (t.deltas j)) :
    Noted e s t := by
  refine ⟨ht, fun rID => (hmarks rID).mpr, fun j hj => hsame j hj.le,
    fun rID => (hs.onlyNew e le_rfl rID).same (hsame e le_rfl rID), fun rID => ?_⟩
  rw [(hsame e le_rfl rID).1, hmarks]
  tauto

theorem Noted.refl (hs : Noting e s) : Noted e s s :=
  .of_same hs hs.tidy (fun _ => Iff.rfl) fun _ _ _ => .refl _ _

theorem Noted.of_eq (hs : Noting e s) (hdb : ∀ rID, rID ∈ t.db.reversedPayment ↔
      rID ∈ s.db.reversedPayment) (hlines : t.db.trustlines = s.db.trustlines)
    (hdeltas : t.deltas = s.deltas) : Noted e s t := by
  refine .of_same hs (hs.tidy.of_eq hlines hdeltas) hdb fun j _ rID => ?_
  rw [hdeltas]
  exact .refl _ _

theorem Noted.of_loaded {d : ℕ} (hs : Noting e s) (h : Loaded d s t) : Noted e s t := by
  refine .of_same hs (hs.tidy.loaded h) (fun rID => by rw [h.db]) fun j _ rID => ?_
  by_cases hj : j = d
  · subst hj
    exact h.same _
  · rw [h.delta j hj]
    exact .refl _ _

/-- The row of another key is written. -/
theorem Noted.of_stored {kind : StoreKind} {d : ℕ} {k : LedgerKey} (hs : Noting e s)
    (h : Stored kind d k s t) (ht : Tidy e t) (hk : ∀ rID, k ≠ .reversedPayment rID)
    (hmarks : ∀ rID, rID ∈ t.db.reversedPayment ↔ rID ∈ s.db.reversedPayment) : Noted e s t := by
  refine .of_same hs ht hmarks fun j _ rID => ?_
  by_cases hj : j = d
  · subst hj
    exact h.same _ (hk rID).symm
  · rw [h.delta j hj]
    exact .refl _ _

/-! ## Statements -/

/-- Code that notes what it marks, also where an operation fails in it. -/
def KeepsNoted (c : Custody) (e : ℕ) (x : LedgerM α) : Prop :=
  ∀ s, InCustody c s → Noting e s →
    wp x (fun _ t => Noted e s t) (fun ex t => ∀ r, ex = .opFailed r → Noted e s t) s

theorem keepsNoted_of_loaded {x : LedgerM α} (hx : WpLoaded d x) : KeepsNoted c e x :=
  fun s _ h => wp_mono (hx s) (fun _ _ ht => .of_loaded h ht) fun _ _ ht r hr =>
    absurd hr (ht.1 r)

/-- In the same custody no payment may be reversed. -/
def Custody.unmarked (c : Custody) : Custody := { c with reversible := fun _ => False }

theorem InCustody.unmarked (h : InCustody c s) : InCustody c.unmarked s :=
  ⟨h.rows, h.free, h.cached, h.source⟩

/-- What code without marks leaves of them. -/
theorem Marks.iff (h : Marks c.unmarked s t) (rID : ℤ) :
    rID ∈ t.db.reversedPayment ↔ rID ∈ s.db.reversedPayment :=
  ⟨fun hr => (h.new rID hr).resolve_right id, h.kept rID⟩

theorem keepsNoted_of_stored {kind : StoreKind} {k : LedgerKey} {R : α → Prop} {x : LedgerM α}
    (hx : ∀ s, WpStored kind d k s x) (hk : ∀ rID, k ≠ .reversedPayment rID) (htidy : KeepsTidy x)
    (hmarks : KeepsCustody c.unmarked x R) : KeepsNoted c e x := by
  intro s hc h
  refine wp_mono (wp_and (wp_and (hx s) (htidy e s h.tidy)) (hmarks s hc.unmarked))
    (fun _ t ht => ?_) fun ex t ht r hr => absurd hr (ht.1.1.1 r)
  obtain ⟨⟨hstored, ht⟩, hkept, -⟩ := ht
  exact .of_stored h hstored ht hk hkept.marks.iff

theorem keepsNoted_storeReversed (rID : ℤ) :
    KeepsNoted c d (ReversedPaymentFrame.storeAdd d rID) := by
  intro s _ h
  have htidy := KeepsTidy.reversedPayment_storeAdd (d := d) rID d s h.tidy
  have hstored := @ReversedPaymentFrame.wp_storeAdd d s rID
  have hnew : wp (ReversedPaymentFrame.storeAdd d rID)
      (fun _ t => (∀ r, r ∈ t.db.reversedPayment ↔ r = rID ∨ r ∈ s.db.reversedPayment) ∧
        rID ∉ s.db.reversedPayment ∧ (t.deltas d).OnlyNew (.reversedPayment rID) ∧
          .reversedPayment rID ∈ (t.deltas d).mNew) (fun _ _ => True) s := by
    simp only [ReversedPaymentFrame.storeAdd, touch, assertion, wp_bind, wp_require,
      wp_get, wp_pure]
    refine ⟨fun _ => ?_, fun _ => trivial⟩
    cases hrow : s.db.reversedPayment[rID]? with
    | some _ => trivial
    | none =>
      simp only [wp_bind, wp_modify, wp_updateDelta]
      refine ⟨fun δ hδ => ⟨fun r => ?_, ?_, ?_⟩, fun _ => trivial⟩
      · rw [Std.ExtTreeMap.mem_insert, compare_eq_iff_eq, eq_comm]
      · rw [Std.ExtTreeMap.mem_iff_isSome_getElem?, hrow]
        exact Bool.false_ne_true
      · simp only [Function.update_self]
        exact LedgerDelta.addEntry_onlyNew (e := ⟨_, .reversedPayment ⟨rID⟩⟩)
          (h.onlyNew d le_rfl rID) hδ
  refine wp_mono (wp_and (wp_and hstored htidy) hnew) (fun _ t ht => ?_)
    fun ex t ht r hr => absurd hr (ht.1.1.1 r)
  obtain ⟨⟨hst, ht⟩, hmarks, hfresh, honly, hin⟩ := ht
  refine ⟨ht, fun r hr => (hmarks r).mpr (Or.inr hr), fun j hj r => ?_, fun r => ?_, fun r => ?_⟩
  · rw [hst.delta j hj.ne]
    exact .refl _ _
  · by_cases hr : r = rID
    · rw [hr]
      exact honly
    · exact (h.onlyNew d le_rfl r).same
        (hst.same _ fun heq => hr (LedgerKey.reversedPayment.inj heq))
  · by_cases hr : r = rID
    · subst hr
      rw [hmarks]
      simp [hin, hfresh]
    · rw [(hst.same _ fun heq => hr (LedgerKey.reversedPayment.inj heq)).1, hmarks]
      tauto

/-! ## Scopes -/

theorem withDelta_of_le {j : ℕ} (hj : j ≤ d) : (withDelta d s).deltas j = s.deltas j :=
  Function.update_of_ne (by omega) _ _

theorem withDelta_self : (withDelta d s).deltas (d + 1) =
    .ofHeader (s.deltas d).mCurrentHeader (s.deltas d).mUpdateLastModified :=
  Function.update_self ..

theorem Noting.opened (h : Noting d s) : Noting (d + 1) (withDelta d s) := by
  refine ⟨h.tidy.opened, fun j hj rID => ?_⟩
  rcases hj.lt_or_eq with hj | rfl
  · rw [withDelta_of_le (by omega)]
    exact h.onlyNew j (by omega) rID
  · rw [withDelta_self]
    exact .ofHeader _ _

/-- Of the deltas up to `d`, the payments in them have not changed. -/
theorem Noted.outer (h : Noted (d + 1) (withDelta d s) t) :
    ∀ j ≤ d, ∀ rID, (s.deltas j).Same (.reversedPayment rID) (t.deltas j) := by
  intro j hj rID
  have hsame := h.outside j (by omega) rID
  rwa [withDelta_of_le hj] at hsame

/-- **A delta is committed into the one around it.** -/
theorem wp_commit_noted (hs : Noting d s) (h : Noted (d + 1) (withDelta d s) t) :
    wp (commit d) (fun _ u => Noted d s u) (fun ex _ => ∀ r, ex ≠ .opFailed r) t := by
  have htidy := KeepsTidy.commit (d := d) d t (h.tidy.weaken (by omega))
  have hmerge : wp (commit d)
      (fun _ u => u.db = t.db ∧ (∀ j ≠ d, u.deltas j = t.deltas j) ∧
        ∀ rID, (u.deltas d).OnlyNew (.reversedPayment rID) ∧
          (.reversedPayment rID ∈ (u.deltas d).mNew ↔
            .reversedPayment rID ∈ (t.deltas d).mNew ∨
              .reversedPayment rID ∈ (t.deltas (d + 1)).mNew))
      (fun ex _ => ∀ r, ex ≠ .opFailed r) t := by
    simp only [commit, wp_bind, wp_get, wp_ite, wp_throw, wp_updateDelta]
    refine ⟨fun _ r hr => (by cases hr), fun _ => ⟨fun δ hδ => ?_, fun _ r hr => (by cases hr)⟩⟩
    obtain ⟨δ₀, hmerge, rfl⟩ := Option.map_eq_some_iff.mp hδ
    refine ⟨trivial, fun j hj => Function.update_of_ne hj _ _, fun rID => ?_⟩
    simp only [Function.update_self]
    obtain ⟨⟨hmod, hdelete⟩, hnew⟩ :=
      LedgerDelta.mergeEntries_onlyNew (h.tidy.deltas d (by omega)).wf
      (h.tidy.deltas (d + 1) le_rfl).wf ((hs.onlyNew d le_rfl rID).same (h.outer d le_rfl rID))
      (h.onlyNew rID) hmerge
    exact ⟨⟨hmod, hdelete⟩, hnew⟩
  refine wp_mono (wp_and htidy hmerge) (fun _ u hu => ?_) fun _ _ hu => hu.2
  obtain ⟨hu, hdb, hothers, hd⟩ := hu
  refine ⟨hu, fun rID hr => ?_, fun j hj rID => ?_, fun rID => (hd rID).1, fun rID => ?_⟩
  · rw [hdb]
    exact h.kept rID hr
  · rw [hothers j hj.ne]
    exact h.outer j hj.le rID
  · have hnew : .reversedPayment rID ∈ (t.deltas (d + 1)).mNew ↔
        .reversedPayment rID ∈ ((withDelta d s).deltas (d + 1)).mNew ∨
          rID ∈ t.db.reversedPayment ∧ rID ∉ s.db.reversedPayment := h.new rID
    have hempty : .reversedPayment rID ∉ ((withDelta d s).deltas (d + 1)).mNew := by
      rw [withDelta_self]
      exact Std.ExtTreeMap.not_mem_empty
    rw [(hd rID).2, hnew, (h.outer d le_rfl rID).1, hdb]
    tauto

theorem KeepsNoted.bind {x : LedgerM α} {f : α → LedgerM β} {R : α → Prop}
    (hx : KeepsNoted c e x) (hR : KeepsCustody c x R) (hf : ∀ a, R a → KeepsNoted c e (f a)) :
    KeepsNoted c e (x >>= f) := by
  intro s hc h
  rw [wp_bind]
  refine wp_mono (wp_and (hx s hc h) (hR s hc)) (fun a t ht => ?_) fun _ _ ht => ht.1
  obtain ⟨hnoted, hkept, ha⟩ := ht
  exact wp_mono (hf a ha t hkept.custody (hnoted.noting h)) (fun _ _ hu => hnoted.trans hu)
    fun _ _ hu r hr => hnoted.trans (hu r hr)

/-- A delta that is left where `x` returns, and where nothing is undone if an operation fails. -/
theorem wp_nested_noted {x : LedgerM α} (hs : Noting d s)
    (hx : wp x (fun _ t => Noted (d + 1) (withDelta d s) t)
      (fun ex t => ∀ r, ex = .opFailed r → t.db = s.db ∧ Tidy d t ∧
        ∀ j ≤ d, ∀ rID, (s.deltas j).Same (.reversedPayment rID) (t.deltas j)) (withDelta d s)) :
    wp (nested d x) (fun _ t => Noted d s t)
      (fun ex t => ∀ r, ex = .opFailed r → Noted d s t) s := by
  simp only [nested, openDelta, rollback, wp_bind, wp_modify, wp_tryCatch, wp_throw, wp_pure]
  refine wp_mono hx (fun _ t ht => ?_) fun ex t ht r hr => ?_
  · exact wp_mono (wp_commit_noted hs ht) (fun _ _ hu => hu) fun ex _ hu r hr => absurd hr (hu r)
  · obtain ⟨hdb, htidy, hsame⟩ := ht r hr
    exact .of_same hs (htidy.of_eq rfl rfl) (fun rID => by rw [← hdb]) hsame

theorem KeepsNoted.guarded {p : LedgerHeader → Prop} [DecidablePred p] {r : OperationResultTr}
    {x : LedgerHeader → LedgerM α} (hx : ∀ header, KeepsNoted c (d + 1) (x header))
    (hfail : ∀ header, Unfailing (x header)) :
    KeepsNoted c d (nested d (do
      let header ← getHeader (d + 1)
      failIf (p header) r
      x header)) := by
  intro s hc h
  refine wp_nested_noted h ?_
  simp only [getHeader, failIf, fail, wp_bind, wp_get, wp_pure, wp_ite, wp_throw]
  refine ⟨fun _ r' _ => ⟨rfl, h.opened.tidy.weaken (by omega), (Noted.refl h.opened).outer⟩,
    fun _ => ?_⟩
  exact wp_mono (wp_and (hx _ _ hc.opened h.opened) (hfail _ _)) (fun _ _ ht => ht.1)
    fun ex t ht r' hr => absurd hr (ht.2 r')

theorem KeepsNoted.scope {x : LedgerM α} (hx : KeepsNoted c (d + 1) x) :
    KeepsNoted c d (nested d (sqlTransaction x)) := by
  intro s hc h
  refine wp_nested_noted h ?_
  rw [wp_sqlTransaction]
  refine wp_mono (hx _ hc.opened h.opened) (fun _ _ ht => ht) fun ex t ht r hr => ?_
  have hnoted := ht r hr
  exact ⟨rfl, ⟨h.tidy.lines.of_eq rfl, fun j hj => hnoted.tidy.deltas j (by omega)⟩, hnoted.outer⟩

/-! ## Programs -/

/-- **A program notes what it marks.** -/
theorem Program.keepsNoted {x : LedgerM α} {R : α → Prop} (h : Program c m x R) :
    KeepsNoted c m.delta x := by
  induction h with
  | pure _ => exact fun s _ h => .refl h
  | bind hx _ ihx ihf => exact ihx.bind hx.keepsCustody ihf
  | mono _ _ ih => exact ih
  | throw e => exact fun s _ h r _ => .refl h
  | get => exact fun s _ h => .refl h
  | note e => exact fun s _ h => .of_eq h (fun _ => Iff.rfl) rfl rfl
  | @setHeader m header =>
    intro s _ h
    have htidy := KeepsTidy.setHeader (d := m.delta) header m.delta s h.tidy
    simp only [Ledger.setHeader, wp_updateDelta] at htidy ⊢
    refine ⟨fun δ hδ => ?_, fun hδ => absurd hδ (Option.some_ne_none _)⟩
    have ht := htidy.1 δ hδ
    obtain rfl := Option.some.inj hδ
    have hheader : ∀ k, (s.deltas m.delta).Same k
        { s.deltas m.delta with mCurrentHeader := header } := fun k => .refl k (s.deltas m.delta)
    refine .of_same h ht (fun _ => Iff.rfl) fun j _ rID => ?_
    by_cases hj : j = m.delta
    · rw [hj]
      simp only [Function.update_self]
      exact hheader _
    · simp only [Function.update_of_ne hj]
      exact .refl _ _
  | load hx _ => exact keepsNoted_of_loaded hx
  | loadAccount id => exact keepsNoted_of_loaded (AccountFrame.wpLoaded_loadAccount _ id)
  | storeChange hf _ =>
    exact keepsNoted_of_stored (fun _ => AccountFrame.wp_storeChange) (fun _ hkey => by cases hkey)
      (.account_storeChange _) (keepsCustody_storeChange hf)
  | storeAdd hf hsigners =>
    exact keepsNoted_of_stored (fun _ => AccountFrame.wp_storeAdd) (fun _ hkey => by cases hkey)
      (.account_storeAdd _) (keepsCustody_storeAdd hf hsigners)
  | storeDelete hf =>
    exact keepsNoted_of_stored (fun _ => AccountFrame.wp_storeDelete) (fun _ hkey => by cases hkey)
      (.account_storeDelete _) (keepsCustody_storeDelete hf)
  | storeReversed _ => exact keepsNoted_storeReversed _
  | store _ hx hk hx' htidy =>
    exact keepsNoted_of_stored hx hk htidy (keepsCustody_of_stored hx hx')
  | getSource =>
    intro s _ h
    simp only [getSourceAccount, wp_bind, wp_get, wp_deref]
    exact ⟨fun _ _ => .refl h, fun _ _ _ => .refl h⟩
  | setSource _ => exact fun s _ h => .of_eq h (fun _ => Iff.rfl) rfl rfl
  | catchFailed hx _ hother ihx ihfail =>
    intro s hc h
    rw [wp_tryCatch]
    refine wp_mono (wp_and (ihx s hc h) (hx.keepsCustody s hc)) (fun _ _ ht => ht.1)
      fun ex t ht => ?_
    obtain ⟨hnoted, hkept⟩ := ht
    by_cases he : ∀ r, ex ≠ .opFailed r
    · rw [hother ex he]
      exact fun r hr => absurd hr (he r)
    · obtain ⟨r, he⟩ := not_forall.mp he
      obtain rfl := not_not.mp he
      have hnoted := hnoted r rfl
      exact wp_mono (ihfail r t hkept.custody (hnoted.noting h)) (fun _ _ hu => hnoted.trans hu)
        fun _ _ hu r hr => hnoted.trans (hu r hr)
  | guarded _ hfail ih => exact .guarded ih hfail
  | scope hx _ ihx ihf => exact (KeepsNoted.bind ihx hx.keepsCustody ihf).scope

end SmartCore.Transactions
